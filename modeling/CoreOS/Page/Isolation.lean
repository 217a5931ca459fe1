import CoreOS.Page.Translation
import CoreOS.Proc.Chains
import Mathlib.Order.Interval.Set.Basic

/-!
# What a program can reach

The page tables follow the process table.  Each event of the kernel installs at most one process,
`installs`, and in every state of a run the frame of the process that was installed last is the one
that the program's addresses lead to (`isMap_run`).  As long as the starts of shells succeed that is
the running process.

The map is the same for every process but for two entries, so a program reaches its own frame, one of
the pages of the screen, and what the map of the kernel leaves open.  That is the page of the kernel
itself: `init_page` sets `user_super` there, and a handler of signals returns to
`sigreturn_linkage`, which is in it.  What no program reaches is the frame of another process.
-/

namespace CoreOS
namespace Page

open Runs

/-! ## Installing a process -/

/-- The process that is switched to, if it is another one. -/
def switches (s : Proc.Table) (nextPid : ℕ) : Option ℕ :=
  if (s.pcbs s.cur).pid = nextPid then none else some nextPid

/-- The process that an event installs, if it does. -/
def installs (s : Proc.Table) : Proc.Event → Option ℕ
  | .tick loads nextPid =>
    if s.curPid (s.curProcInd + 1) = 0 then (s.starts loads).or (switches s nextPid)
    else switches s (s.curPid (s.curProcInd + 1))
  | .switchTerm _ => none
  | .execute loads => s.starts loads
  | .halt => (s.pcbs s.cur).parent.map fun parent => (s.pcbs parent).pid

/-- The frame that the program's addresses lead to. -/
def frame : Option ℕ → ℕ
  | none => Proc.userPageIndex
  | some pid => Proc.taskPageIndex pid

theorem userPage_switchTo (s : Proc.Table) (nextPid : ℕ) :
    (s.switchTo nextPid).userPage = ((switches s nextPid).map Proc.taskPageIndex).getD s.userPage := by
  rw [Proc.Table.switchTo, switches]
  split
  · rfl
  · rfl

/-- **What one event installs.** -/
theorem userPage_step (s : Proc.Table) (e : Proc.Event) :
    (Proc.step s e).userPage = ((installs s e).map Proc.taskPageIndex).getD s.userPage := by
  cases e with
  | tick loads nextPid =>
    rw [Proc.step, Proc.Table.pitIsr_eq, installs]
    by_cases hc : s.curPid (s.curProcInd + 1) = 0
    · rw [if_pos hc, if_pos hc]
      cases s.starts loads with
      | none => exact userPage_switchTo _ nextPid
      | some pid => rfl
    · rw [if_neg hc, if_neg hc]
      exact userPage_switchTo _ _
  | switchTerm ind => rfl
  | execute loads =>
    rw [Proc.step, Proc.Table.execute_eq, installs]
    cases s.starts loads with
    | none => rfl
    | some pid => rfl
  | halt =>
    rw [Proc.step, Proc.Table.halt, installs]
    cases (s.pcbs s.cur).parent with
    | none => rfl
    | some parent => rfl

/-- The page that programs paint to is one of the four pages of the screen. -/
def IsScreenPage (s : Proc.Table) : Prop := s.vidmemPage ∈ Set.Icc 0xB8 0xBB

theorem isScreenPage_switchTo (s : Proc.Table) (nextPid : ℕ) (h : IsScreenPage s) :
    IsScreenPage (s.switchTo nextPid) := by
  unfold Proc.Table.switchTo
  split
  · exact h
  · rw [IsScreenPage, Set.mem_Icc]
    dsimp only
    have hterm : ((s.pcbs nextPid).termInd : ℕ) < 3 := (s.pcbs nextPid).termInd.isLt
    rw [Proc.background1, Proc.vidMemAddr]
    split
    · omega
    · omega

theorem isScreenPage_step {s : Proc.Table} (h : IsScreenPage s) (e : Proc.Event) :
    IsScreenPage (Proc.step s e) := by
  cases e with
  | tick loads nextPid =>
    rw [Proc.step, Proc.Table.pitIsr_eq]
    split
    · cases s.starts loads with
      | none => exact isScreenPage_switchTo _ nextPid h
      | some pid => exact h
    · exact isScreenPage_switchTo _ _ h
  | switchTerm ind => exact h
  | execute loads =>
    rw [Proc.step, Proc.Table.execute_eq]
    cases s.starts loads with
    | none => exact h
    | some pid => exact h
  | halt =>
    rw [Proc.step, Proc.Table.halt]
    cases (s.pcbs s.cur).parent with
    | none => exact h
    | some parent => exact h

/-! ## Machines -/

/-- **The page tables follow the process table.** -/
structure Follows (sym : Symbols) (m : Machine) : Prop where
  entries : Entries sym m.tables m.table.userPage m.table.vidmemPage
  userPage : m.table.userPage < 2 ^ 10
  screen : IsScreenPage m.table

variable {sym : Symbols}

theorem Follows.installable {m : Machine} (h : Follows sym m) : Installable m.table :=
  ⟨h.userPage, by
    have := h.screen.2
    omega⟩

theorem follows_boot (t : Tables) (pcbs : ℕ → Proc.PCB) (esp0 : ℕ) :
    Follows sym (boot sym t pcbs esp0) where
  entries := entries_initPage sym t
  userPage := show Proc.userPageIndex < 2 ^ 10 by decide
  screen := show Proc.vidMemAddr ∈ Set.Icc 0xB8 0xBB from ⟨by decide, by decide⟩

/-- One event, if the process that it installs has a frame in the map. -/
theorem Follows.step {m : Machine} (h : Follows sym m) (e : Proc.Event)
    (he : ∀ pid, installs m.table e = some pid → Proc.taskPageIndex pid < 2 ^ 10) :
    Follows sym (step m e) := by
  have hscreen : IsScreenPage (Proc.step m.table e) := isScreenPage_step h.screen e
  have huser : (Proc.step m.table e).userPage < 2 ^ 10 := by
    rw [userPage_step]
    cases hpid : installs m.table e with
    | none => exact h.userPage
    | some pid => exact he pid hpid
  have hinstallable : Installable (Proc.step m.table e) :=
    ⟨huser, by
      have := hscreen.2
      omega⟩
  exact ⟨h.entries.install hinstallable, huser, hscreen⟩

/-- The process table of a run. -/
theorem table_run (m : Machine) (es : List Proc.Event) :
    (run step m es).table = run Proc.step m.table es := by
  induction es generalizing m with
  | nil => rfl
  | cons e es ih => exact ih (step m e)

/-! ## Every run -/

/-- The members `pid` and `cur_pid` are bytes. -/
structure Bytes (s : Proc.Table) : Prop where
  pid : ∀ p, (s.pcbs p).pid < 2 ^ 8
  curPid : ∀ t, s.curPid t < 2 ^ 8

/-- So is `next_pid`. -/
def IsByte : Proc.Event → Prop
  | .tick _ nextPid => nextPid < 2 ^ 8
  | _ => True

theorem bytes_launch {s : Proc.Table} (h : Bytes s) {pid : ℕ} (hpid : pid < maxProcNum)
    (termInd : Option (Fin Proc.termNum)) : Bytes (s.launch pid termInd) := by
  unfold maxProcNum at hpid
  refine ⟨fun p => ?_, fun t => ?_⟩
  · by_cases hp : p = pid
    · subst hp
      unfold Proc.Table.launch
      dsimp only
      rw [Function.update_self]
      dsimp only
      omega
    · exact (congrArg (·.pid) (Function.update_of_ne hp _ s.pcbs)).trans_lt (h.pid p)
  · unfold Proc.Table.launch
    dsimp only
    rw [Function.update_apply]
    split
    · omega
    · exact h.curPid t

theorem bytes_switchTo (s : Proc.Table) (nextPid : ℕ) (h : Bytes s) : Bytes (s.switchTo nextPid) := by
  unfold Proc.Table.switchTo
  split
  · exact h
  · exact ⟨h.pid, h.curPid⟩

/-- The pid that `_syscall_execute` finds. -/
theorem starts_lt {s : Proc.Table} {loads : Bool} {pid : ℕ} (h : s.starts loads = some pid) :
    pid < maxProcNum :=
  (Proc.freePid_spec (Proc.Table.starts_eq_some.mp h).2).2.1

theorem bytes_step {s : Proc.Table} (h : Bytes s) (e : Proc.Event) : Bytes (Proc.step s e) := by
  cases e with
  | tick loads nextPid =>
    have h' : Bytes { s with curProcInd := s.curProcInd + 1 } := ⟨h.pid, h.curPid⟩
    rw [Proc.step, Proc.Table.pitIsr_eq]
    split
    · cases hpid : s.starts loads with
      | none => exact bytes_switchTo _ nextPid h'
      | some pid => exact bytes_launch h' (starts_lt hpid) _
    · exact bytes_switchTo _ _ h'
  | switchTerm ind => exact ⟨h.pid, h.curPid⟩
  | execute loads =>
    rw [Proc.step, Proc.Table.execute_eq]
    cases hpid : s.starts loads with
    | none => exact h
    | some pid => exact bytes_launch h (starts_lt hpid) none
  | halt =>
    rw [Proc.step, Proc.Table.halt]
    cases (s.pcbs s.cur).parent with
    | none => exact h
    | some parent =>
      refine ⟨h.pid, fun t => ?_⟩
      dsimp only
      rw [Function.update_apply]
      split
      · exact h.pid parent
      · exact h.curPid t

theorem switches_spec {s : Proc.Table} {nextPid pid : ℕ} (h : switches s nextPid = some pid) :
    pid = nextPid := by
  unfold switches at h
  split at h
  · exact absurd h (by simp)
  · exact (Option.some.inj h).symm

/-- The process that a timer interrupt installs. -/
theorem installs_tick {s : Proc.Table} {loads : Bool} {nextPid pid : ℕ}
    (h : installs s (.tick loads nextPid) = some pid) :
    (s.curPid (s.curProcInd + 1) = 0 ∧
      (s.starts loads = some pid ∨ (s.starts loads = none ∧ pid = nextPid))) ∨
    (s.curPid (s.curProcInd + 1) ≠ 0 ∧ pid = s.curPid (s.curProcInd + 1)) := by
  rw [installs] at h
  by_cases hc : s.curPid (s.curProcInd + 1) = 0
  · rw [if_pos hc] at h
    refine Or.inl ⟨hc, ?_⟩
    cases hstarts : s.starts loads with
    | none =>
      rw [hstarts, Option.none_or] at h
      exact Or.inr ⟨rfl, switches_spec h⟩
    | some p =>
      rw [hstarts, Option.some_or] at h
      exact Or.inl h
  · rw [if_neg hc] at h
    exact Or.inr ⟨hc, switches_spec h⟩

/-- **Whatever is installed is a byte.** -/
theorem installs_lt {s : Proc.Table} (h : Bytes s) {e : Proc.Event} (he : IsByte e) {pid : ℕ}
    (hpid : installs s e = some pid) : pid < 2 ^ 8 := by
  have hmax : maxProcNum < 2 ^ 8 := by decide
  cases e with
  | tick loads nextPid =>
    rcases installs_tick hpid with ⟨-, hstarts | ⟨-, rfl⟩⟩ | ⟨-, rfl⟩
    · exact (starts_lt hstarts).trans hmax
    · exact he
    · exact h.curPid _
  | switchTerm ind => exact absurd hpid (by simp [installs])
  | execute loads => exact (starts_lt hpid).trans hmax
  | halt =>
    obtain ⟨parent, -, rfl⟩ := Option.map_eq_some_iff.mp hpid
    exact h.pid parent

/-- **In every run** the page tables follow the process table. -/
theorem follows_run {m : Machine} (h : Follows sym m) (hbytes : Bytes m.table)
    {es : List Proc.Event} (hes : ∀ e ∈ es, IsByte e) : Follows sym (run step m es) := by
  have hmeets : Meets step (fun _ e => IsByte e) m es := meets_of_forall (fun e he _ => hes e he) m
  refine (invariant_of_meets (I := fun m => Follows sym m ∧ Bytes m.table) ?_ ⟨h, hbytes⟩ hmeets).1
  rintro m e ⟨hfollows, hbytes⟩ he
  refine ⟨hfollows.step e fun pid hpid => ?_, bytes_step hbytes e⟩
  have hlt := installs_lt hbytes he hpid
  unfold Proc.taskPageIndex
  omega

/-! ## The map -/

/-- The four pages of the screen. -/
def screens : Set ℕ := Set.Ico 0xB8000 0xBC000

/-- The page of the kernel. -/
def kernel : Set ℕ := Set.Ico 0x400000 0x800000

/-- The page of the program. -/
def program : Set ℕ := Set.Ico 0x8000000 0x8400000

/-- The page that a program paints to. -/
def painting : Set ℕ := Set.Ico 0x8800000 0x8801000

section map

variable {u v va : ℕ}

theorem intended_screens (h : va ∈ screens) : intended u v va = some (va, false) :=
  if_pos h

theorem intended_kernel (h : va ∈ kernel) : intended u v va = some (va, true) := by
  rw [kernel, Set.mem_Ico] at h
  rw [intended, if_neg (by omega), if_pos h]

theorem intended_program (h : va ∈ program) :
    intended u v va = some (u * 2 ^ 22 + (va - 0x8000000), true) := by
  rw [program, Set.mem_Ico] at h
  rw [intended, if_neg (by omega), if_neg (by omega), if_pos h]

theorem intended_painting (h : va ∈ painting) :
    intended u v va = some (v * 2 ^ 12 + (va - 0x8800000), true) := by
  rw [painting, Set.mem_Ico] at h
  rw [intended, if_neg (by omega), if_neg (by omega), if_neg (by omega), if_pos h]

theorem intended_eq_none (h₁ : va ∉ screens) (h₂ : va ∉ kernel) (h₃ : va ∉ program)
    (h₄ : va ∉ painting) : intended u v va = none :=
  (if_neg h₁).trans ((if_neg h₂).trans ((if_neg h₃).trans (if_neg h₄)))

end map

section follows

variable {m : Machine}

/-- The walk in a state of a run. -/
theorem Follows.translate_eq (h : Follows sym m) (va : BitVec 32) :
    translate sym m.tables va = intended m.table.userPage m.table.vidmemPage va.toNat :=
  Page.translate_eq h.entries h.userPage h.installable.vidmemPage va

end follows

section stacked

variable {s : Proc.Table} {stk : Fin Proc.termNum → List ℕ}

/-- Among stacks of processes, the installed one has a pid of the table. -/
theorem installs_lt_of_stacked (h : Proc.Stacked s stk) {e : Proc.Event} (he : Proc.Proper s e)
    {pid : ℕ} (hpid : installs s e = some pid) : pid < maxProcNum := by
  cases e with
  | tick loads nextPid =>
    rcases installs_tick hpid with ⟨hc, hstarts | ⟨hstarts, -⟩⟩ | ⟨hc, rfl⟩
    · exact starts_lt hstarts
    · obtain ⟨hfree, rfl⟩ := he hc
      have hnone : s.freePid = none := hstarts
      rw [hnone] at hfree
      exact absurd hfree (by simp)
    · have hvalid := (h.tableOk.cur_valid (s.curProcInd + 1)).resolve_left hc
      unfold maxProcNum
      omega
  | switchTerm ind => exact absurd hpid (by simp [installs])
  | execute loads => exact starts_lt hpid
  | halt =>
    obtain ⟨parent, hparent, rfl⟩ := Option.map_eq_some_iff.mp hpid
    obtain ⟨h0, -⟩ | ⟨-, hrun⟩ := h.cur
    · exact absurd h0 he
    obtain ⟨rest, hstk⟩ := h.stack_cur hrun hparent
    have hmem : parent ∈ stk (s.pcbs s.cur).termInd := by
      rw [hstk]
      simp
    rw [(h.pcb _ parent hmem).1]
    exact (h.valid _ parent hmem).2.1

end stacked

/-- The physical address that a program reaches. -/
def userAccess (sym : Symbols) (t : Tables) (va : BitVec 32) : Option ℕ :=
  ((translate sym t va).filter Prod.snd).map Prod.fst

/-- The frame of a process. -/
def frameOf (pid : ℕ) : Set ℕ := Set.Ico ((2 + pid) * 2 ^ 22) ((3 + pid) * 2 ^ 22)

/-- A program reaches its own frame and the page it paints to. -/
def Isolated (access : BitVec 32 → Option ℕ) (pid : ℕ) : Prop :=
  ∀ va pa, access va = some pa →
    (va.toNat ∈ program ∧ pa ∈ frameOf pid) ∨ va.toNat ∈ painting

/-- **A program reaches its own frame, the page it paints to, and the kernel.**  It reaches no frame
of another process. -/
structure Confined (access : BitVec 32 → Option ℕ) (pid : ℕ) : Prop where
  reached : ∀ va, (access va).isSome ↔
    va.toNat ∈ program ∨ va.toNat ∈ painting ∨ va.toNat ∈ kernel
  own : ∀ va, va.toNat ∈ program → ∃ pa ∈ frameOf pid, access va = some pa
  screen : ∀ va, va.toNat ∈ painting → ∃ pa ∈ screens, access va = some pa
  kernel : ∀ va, va.toNat ∈ kernel → access va = some va.toNat
  others : ∀ va pa, access va = some pa → ∀ pid', pid' ≠ pid → pa ∉ frameOf pid'

/-- Frames are apart. -/
theorem notMem_frameOf {pid pid' pa : ℕ} (h : pa ∈ frameOf pid) (hne : pid' ≠ pid) :
    pa ∉ frameOf pid' := by
  intro h'
  rw [frameOf, Set.mem_Ico] at h h'
  omega

/-- What is below the frames is in none. -/
theorem notMem_frameOf_of_lt {pid pa : ℕ} (h : pa < 2 * 2 ^ 22) : pa ∉ frameOf pid := by
  intro h'
  rw [frameOf, Set.mem_Ico] at h'
  omega

section confined

variable {m : Machine} {va : BitVec 32}

theorem Follows.userAccess_eq (h : Follows sym m) (va : BitVec 32) :
    userAccess sym m.tables va =
      ((intended m.table.userPage m.table.vidmemPage va.toNat).filter Prod.snd).map Prod.fst := by
  rw [userAccess, h.translate_eq]

theorem Follows.userAccess_kernel (h : Follows sym m) (hva : va.toNat ∈ kernel) :
    userAccess sym m.tables va = some va.toNat := by
  rw [h.userAccess_eq, intended_kernel hva]
  rfl

theorem Follows.userAccess_program (h : Follows sym m) {pid : ℕ}
    (hpid : m.table.userPage = 2 + pid) (hva : va.toNat ∈ program) :
    ∃ pa ∈ frameOf pid, userAccess sym m.tables va = some pa := by
  refine ⟨(2 + pid) * 2 ^ 22 + (va.toNat - 0x8000000), ?_, ?_⟩
  · rw [program, Set.mem_Ico] at hva
    rw [frameOf, Set.mem_Ico]
    omega
  · rw [h.userAccess_eq, intended_program hva, hpid]
    rfl

theorem Follows.userAccess_painting (h : Follows sym m) (hva : va.toNat ∈ painting) :
    ∃ pa ∈ screens, userAccess sym m.tables va = some pa := by
  refine ⟨m.table.vidmemPage * 2 ^ 12 + (va.toNat - 0x8800000), ?_, ?_⟩
  · obtain ⟨hlow, hhigh⟩ := h.screen
    rw [painting, Set.mem_Ico] at hva
    rw [screens, Set.mem_Ico]
    omega
  · rw [h.userAccess_eq, intended_painting hva]
    rfl

/-- Everything else is closed to programs. -/
theorem Follows.userAccess_eq_none (h : Follows sym m) (hkernel : va.toNat ∉ kernel)
    (hprogram : va.toNat ∉ program) (hpainting : va.toNat ∉ painting) :
    userAccess sym m.tables va = none := by
  rw [h.userAccess_eq]
  by_cases hscreens : va.toNat ∈ screens
  · rw [intended_screens hscreens]
    rfl
  · rw [intended_eq_none hscreens hkernel hprogram hpainting]
    rfl

/-- Where an access of a program leads. -/
theorem Follows.userAccess_cases (h : Follows sym m) {pid : ℕ}
    (hpid : m.table.userPage = 2 + pid) {pa : ℕ} (hpa : userAccess sym m.tables va = some pa) :
    (va.toNat ∈ program ∧ pa ∈ frameOf pid) ∨ (va.toNat ∈ painting ∧ pa ∈ screens) ∨
      (va.toNat ∈ kernel ∧ pa = va.toNat) := by
  by_cases hprogram : va.toNat ∈ program
  · obtain ⟨pa', hmem, hpa'⟩ := h.userAccess_program hpid hprogram
    obtain rfl := Option.some.inj (hpa.symm.trans hpa')
    exact Or.inl ⟨hprogram, hmem⟩
  by_cases hpainting : va.toNat ∈ painting
  · obtain ⟨pa', hmem, hpa'⟩ := h.userAccess_painting hpainting
    obtain rfl := Option.some.inj (hpa.symm.trans hpa')
    exact Or.inr (Or.inl ⟨hpainting, hmem⟩)
  by_cases hkernel : va.toNat ∈ kernel
  · exact Or.inr (Or.inr ⟨hkernel, Option.some.inj (hpa.symm.trans (h.userAccess_kernel hkernel))⟩)
  · rw [h.userAccess_eq_none hkernel hprogram hpainting] at hpa
    exact absurd hpa (by simp)

theorem Follows.confined (h : Follows sym m) {pid : ℕ} (hpid : m.table.userPage = 2 + pid) :
    Confined (userAccess sym m.tables) pid where
  reached := by
    intro va
    rw [Option.isSome_iff_exists]
    constructor
    · rintro ⟨pa, hpa⟩
      rcases h.userAccess_cases hpid hpa with ⟨hva, -⟩ | ⟨hva, -⟩ | ⟨hva, -⟩
      · exact Or.inl hva
      · exact Or.inr (Or.inl hva)
      · exact Or.inr (Or.inr hva)
    · rintro (hva | hva | hva)
      · obtain ⟨pa, -, hpa⟩ := h.userAccess_program hpid hva
        exact ⟨pa, hpa⟩
      · obtain ⟨pa, -, hpa⟩ := h.userAccess_painting hva
        exact ⟨pa, hpa⟩
      · exact ⟨va.toNat, h.userAccess_kernel hva⟩
  own := fun _ hva => h.userAccess_program hpid hva
  screen := fun _ hva => h.userAccess_painting hva
  kernel := fun _ hva => h.userAccess_kernel hva
  others := by
    intro va pa hpa pid' hne
    rcases h.userAccess_cases hpid hpa with ⟨-, hmem⟩ | ⟨-, hmem⟩ | ⟨hva, rfl⟩
    · exact notMem_frameOf hmem hne
    · have hlt := hmem.2
      exact notMem_frameOf_of_lt (by omega)
    · have hlt := hva.2
      exact notMem_frameOf_of_lt (by omega)

/-- In a run in which shells start when they are due, the tables follow and the processes are
stacked. -/
theorem follows_stacked_run (t : Tables) (pcbs : ℕ → Proc.PCB) (esp0 : ℕ) {es : List Proc.Event}
    (hes : Meets step (fun m e => Proc.Proper m.table e) (boot sym t pcbs esp0) es) :
    Follows sym (run step (boot sym t pcbs esp0) es) ∧
      ∃ stk, Proc.Stacked (run step (boot sym t pcbs esp0) es).table stk := by
  refine invariant_of_meets (I := fun m : Machine => Follows sym m ∧ ∃ stk, Proc.Stacked m.table stk)
    ?_ ⟨follows_boot t pcbs esp0, _, Proc.stacked_boot pcbs esp0⟩ hes
  rintro m e ⟨hfollows, stk, hstk⟩ he
  refine ⟨hfollows.step e fun pid hpid => ?_, Proc.stacked_step hstk e he⟩
  have hlt := installs_lt_of_stacked hstk he hpid
  unfold maxProcNum at hlt
  unfold Proc.taskPageIndex
  omega

end confined

/-- **What programs reach**, in every state of a run in which a process runs. -/
theorem confined_run (sym : Symbols) (t : Tables) (pcbs : ℕ → Proc.PCB) (esp0 : ℕ)
    {es : List Proc.Event}
    (hes : Meets step (fun m e => Proc.Proper m.table e) (boot sym t pcbs esp0) es)
    (hcur : (run step (boot sym t pcbs esp0) es).table.cur ≠ 0) :
    Confined (userAccess sym (run step (boot sym t pcbs esp0) es).tables)
      (run step (boot sym t pcbs esp0) es).table.cur := by
  obtain ⟨hfollows, stk, hstk⟩ := follows_stacked_run t pcbs esp0 hes
  exact hfollows.confined (hstk.tableOk.mapped hcur).1

/-- A shell is started, and a program above it. -/
theorem confined_run_shell :
    let sym : Symbols := ⟨0x401000, 0x402000, by decide, by decide, by decide⟩
    let pcbs : ℕ → Proc.PCB := fun _ => ⟨none, 0, 0, 0, 0, fun _ => none⟩
    let m := run step (boot sym ⟨0, 0, 0⟩ pcbs 0) [.tick true 0, .execute true]
    m.table.cur = 2 ∧ Confined (userAccess sym m.tables) m.table.cur := by
  intro sym pcbs m
  have hcur : m.table.cur = 2 := by
    rw [table_run]
    decide
  have hes : Meets step (fun m e => Proc.Proper m.table e) (boot sym ⟨0, 0, 0⟩ pcbs 0)
      [.tick true 0, .execute true] := by
    refine ⟨?_, ?_, trivial⟩
    · show Proc.Proper (Proc.boot pcbs 0) (.tick true 0)
      decide
    · show Proc.Proper (Proc.step (Proc.boot pcbs 0) (.tick true 0)) (.execute true)
      decide
  have hne : m.table.cur ≠ 0 := by
    rw [hcur]
    decide
  exact ⟨hcur, confined_run sym ⟨0, 0, 0⟩ pcbs 0 hes hne⟩

/-- **The kernel is open**: to the first shell, the address at which the kernel begins. -/
theorem not_isolated_shell :
    let sym : Symbols := ⟨0x401000, 0x402000, by decide, by decide, by decide⟩
    let pcbs : ℕ → Proc.PCB := fun _ => ⟨none, 0, 0, 0, 0, fun _ => none⟩
    let m := run step (boot sym ⟨0, 0, 0⟩ pcbs 0) [.tick true 0]
    m.table.cur = 1 ∧ userAccess sym m.tables 0x400000 = some 0x400000 ∧
      ¬ Isolated (userAccess sym m.tables) m.table.cur := by
  intro sym pcbs m
  have hfollows : Follows sym m := by
    have hbytes : Bytes (boot sym ⟨0, 0, 0⟩ pcbs 0).table :=
      ⟨fun _ => Nat.two_pow_pos 8, fun _ => Nat.two_pow_pos 8⟩
    refine follows_run (follows_boot _ _ _) hbytes fun e he => ?_
    obtain rfl := List.mem_singleton.mp he
    exact Nat.two_pow_pos 8
  have hcur : m.table.cur = 1 := by
    rw [table_run]
    decide
  have hmem : (0x400000 : BitVec 32).toNat ∈ kernel := ⟨by decide, by decide⟩
  have hreach : userAccess sym m.tables 0x400000 = some 0x400000 := hfollows.userAccess_kernel hmem
  refine ⟨hcur, hreach, fun h => ?_⟩
  rcases h _ _ hreach with ⟨hva, -⟩ | hva
  · exact absurd hva.1 (by decide)
  · exact absurd hva.1 (by decide)

end Page
end CoreOS
