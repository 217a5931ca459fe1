import CoreOS.Lib.Links
import CoreOS.Proc.Table

/-!
# Every terminal runs a stack of processes

A terminal's processes form a stack: the shell that the scheduler started at the bottom, above it
the program the shell executed, and so on up to `cur_pid`.  Executing pushes, halting pops.  The
kernel does not keep the stacks.  It keeps `cur_pid`, a parent pointer in every PCB, and a table of
the pids in use; the rest of the state says which process is mapped and on which stack the next trap
will run.

`Stacked s stk` says that the state `s` represents the stacks `stk`.  One lemma for each kind of
event says what it does to the stacks: a terminal without processes gets a stack of one, the stack
of the running process is pushed or popped, or another terminal's top becomes the running process.
All the properties of the process table follow from that representation (`Stacked.tableOk`).
-/

namespace CoreOS
namespace Proc

open Runs Table

/-- The parent pointers. -/
def parentOf (s : Table) (p : ℕ) : Option ℕ := (s.pcbs p).parent

/-- The top process of a terminal. -/
def top (s : Table) (t : Fin termNum) : Option ℕ := if s.curPid t = 0 then none else some (s.curPid t)

/-- What is known of the running process: it is on top of its terminal, and it is the one mapped and
the one on whose stack a trap runs. -/
structure Running (s : Table) : Prop where
  on_top : top s (s.pcbs s.cur).termInd = some s.cur
  page_eq : s.userPage = taskPageIndex s.cur
  esp0_eq : s.esp0 = taskKstackBot s.cur

/-- **The state represents the stacks `stk`.** -/
structure Stacked (s : Table) (stk : Fin termNum → List ℕ) : Prop where
  links : ∀ t, Links (parentOf s) (top s t) (stk t)
  valid : ∀ t, ∀ p ∈ stk t, 1 ≤ p ∧ p < maxProcNum ∧ s.pidUsed p = true
  pcb : ∀ t, ∀ p ∈ stk t, (s.pcbs p).pid = p ∧ (s.pcbs p).termInd = t
  used : ∀ p, s.pidUsed p = true → ∃ t, p ∈ stk t
  cur : (s.cur = 0 ∧ ∀ t, stk t = []) ∨ (s.cur ≠ 0 ∧ Running s)

/-! ## What the state says -/

/-- `p` lies on the parent chain of the top process of terminal `t`. -/
def OnChain (s : Table) (t : Fin termNum) (p : ℕ) : Prop :=
  s.curPid t ≠ 0 ∧ Relation.ReflTransGen (fun q r => parentOf s q = some r) (s.curPid t) p

/-- **The process table is in order.** -/
structure TableOk (s : Table) : Prop where
  /-- `cur_pid` is 0 or a pid in use. -/
  cur_valid : ∀ t, s.curPid t = 0 ∨
    (1 ≤ s.curPid t ∧ s.curPid t ≤ 9 ∧ s.pidUsed (s.curPid t) = true)
  /-- A pid in use lies on the chain of exactly one terminal. -/
  chain : ∀ p, s.pidUsed p = true → ∃! t, OnChain s t p
  /-- Its PCB names it and that terminal. -/
  pcb : ∀ p t, s.pidUsed p = true → OnChain s t p → (s.pcbs p).pid = p ∧ (s.pcbs p).termInd = t
  /-- A chain returns to no process and ends at one without a parent. -/
  ends : ∀ t, s.curPid t ≠ 0 → ∃ l, Links (parentOf s) (some (s.curPid t)) l ∧ l.Nodup
  /-- A running process is the top of its own terminal and is in use. -/
  on_top : s.cur ≠ 0 → s.curPid (s.pcbs s.cur).termInd = s.cur ∧ s.pidUsed s.cur = true
  /-- The running process is the one mapped, and traps run on its stack. -/
  mapped : s.cur ≠ 0 → s.userPage = 2 + s.cur ∧ s.esp0 = taskKstackBot s.cur
  /-- Before the first process runs there is none. -/
  idle : s.cur = 0 → ∀ p, s.pidUsed p = false

section stacked

variable {s : Table} {stk : Fin termNum → List ℕ}

theorem top_eq_some {t : Fin termNum} {p : ℕ} : top s t = some p ↔ p ≠ 0 ∧ s.curPid t = p := by
  unfold top
  split
  · rename_i h
    rw [h]
    constructor
    · simp
    · rintro ⟨hp, rfl⟩
      exact absurd rfl hp
  · rename_i h
    rw [Option.some.injEq]
    constructor
    · rintro rfl
      exact ⟨h, rfl⟩
    · rintro ⟨-, rfl⟩
      rfl

theorem Stacked.mem_iff (h : Stacked s stk) (t : Fin termNum) (p : ℕ) :
    p ∈ stk t ↔ OnChain s t p := by
  have hl := h.links t
  unfold OnChain
  by_cases hc : s.curPid t = 0
  · have hnil : stk t = [] := by
      rw [top, if_pos hc] at hl
      have := hl.head?_eq
      exact List.head?_eq_none_iff.mp this
    simp [hnil, hc]
  · rw [top, if_neg hc] at hl
    rw [hl.mem_iff]
    exact ⟨fun hr => ⟨hc, hr⟩, fun hr => hr.2⟩

/-- **The stacks account for everything the table must satisfy.** -/
theorem Stacked.tableOk (h : Stacked s stk) : TableOk s where
  cur_valid := by
    intro t
    by_cases hc : s.curPid t = 0
    · exact Or.inl hc
    · right
      have hmem : s.curPid t ∈ stk t := (h.mem_iff t _).mpr ⟨hc, Relation.ReflTransGen.refl⟩
      obtain ⟨h₁, h₂, h₃⟩ := h.valid t _ hmem
      unfold maxProcNum at h₂
      exact ⟨h₁, by omega, h₃⟩
  chain := by
    intro p hp
    obtain ⟨t, ht⟩ := h.used p hp
    refine ⟨t, (h.mem_iff t p).mp ht, fun t' ht' => ?_⟩
    rw [← (h.pcb t p ht).2, ← (h.pcb t' p ((h.mem_iff t' p).mpr ht')).2]
  pcb := fun p t _ ht => h.pcb t p ((h.mem_iff t p).mpr ht)
  ends := by
    intro t hc
    have hl := h.links t
    have hnodup := hl.nodup
    rw [top, if_neg hc] at hl
    exact ⟨stk t, hl, hnodup⟩
  on_top := by
    intro hcur
    rcases h.cur with ⟨h0, -⟩ | ⟨-, hrun⟩
    · exact absurd h0 hcur
    · obtain ⟨-, htop⟩ := top_eq_some.mp hrun.on_top
      have hmem : s.cur ∈ stk (s.pcbs s.cur).termInd :=
        (h.mem_iff _ _).mpr ⟨by rw [htop]; exact hcur, by rw [htop]⟩
      exact ⟨htop, (h.valid _ _ hmem).2.2⟩
  mapped := by
    intro hcur
    rcases h.cur with ⟨h0, -⟩ | ⟨-, hrun⟩
    · exact absurd h0 hcur
    · exact ⟨hrun.page_eq, hrun.esp0_eq⟩
  idle := by
    intro hcur p
    rcases h.cur with ⟨-, hempty⟩ | ⟨h0, -⟩
    · by_contra hp
      obtain ⟨t, ht⟩ := h.used p (by simpa using hp)
      rw [hempty t] at ht
      simp at ht
    · exact absurd hcur h0

theorem stacked_boot (pcbs : ℕ → PCB) (esp0 : ℕ) : Stacked (boot pcbs esp0) fun _ => [] where
  links := fun _ => rfl
  valid := by simp
  pcb := by simp
  used := by simp [boot]
  cur := Or.inl ⟨rfl, fun _ => rfl⟩

/-! ## What the events do to the stacks -/

theorem freePid_spec {p : ℕ} (h : s.freePid = some p) :
    1 ≤ p ∧ p < maxProcNum ∧ s.pidUsed p = false := by
  have hmem := List.mem_of_find?_eq_some h
  have hfree := List.find?_some h
  rw [List.mem_range'_1, maxProcNum] at hmem
  unfold maxProcNum
  exact ⟨by omega, by omega, by simpa using hfree⟩

/-- Changes elsewhere in the state do not matter. -/
theorem Stacked.of_same (h : Stacked s stk) (ind ind' : Fin termNum) :
    Stacked { s with curProcInd := ind, curTermInd := ind' } stk where
  links := h.links
  valid := h.valid
  pcb := h.pcb
  used := h.used
  cur := h.cur.imp_right fun ⟨hcur, hrun⟩ => ⟨hcur, ⟨hrun.on_top, hrun.page_eq, hrun.esp0_eq⟩⟩

/-! A terminal gets another process to its top, and another stack. -/

theorem top_update_self {s' : Table} {t : Fin termNum} {p : ℕ}
    (h : s'.curPid = Function.update s.curPid t p) (hp : p ≠ 0) : top s' t = some p := by
  rw [top_eq_some, h, Function.update_self]
  exact ⟨hp, rfl⟩

theorem top_update_of_ne {s' : Table} {t t' : Fin termNum} {p : ℕ}
    (h : s'.curPid = Function.update s.curPid t p) (ht : t' ≠ t) : top s' t' = top s t' := by
  rw [top, h, Function.update_of_ne ht, top]

theorem mem_update_iff {t t' : Fin termNum} {l : List ℕ} {p : ℕ} :
    p ∈ Function.update stk t l t' ↔ t' = t ∧ p ∈ l ∨ t' ≠ t ∧ p ∈ stk t' := by
  by_cases ht : t' = t
  · subst ht
    rw [Function.update_self]
    exact ⟨fun hp => Or.inl ⟨rfl, hp⟩, fun h => h.elim And.right fun h => absurd rfl h.1⟩
  · rw [Function.update_of_ne ht]
    exact ⟨fun hp => Or.inr ⟨ht, hp⟩, fun h => h.elim (fun h => absurd h.1 ht) And.right⟩

/-- The chains, if those of the other terminals are as before. -/
theorem links_update {s' : Table} {t : Fin termNum} {l : List ℕ} {p : ℕ}
    (hcurPid : s'.curPid = Function.update s.curPid t p)
    (hself : Links (parentOf s') (top s' t) l)
    (hother : ∀ t', t' ≠ t → Links (parentOf s') (top s t') (stk t')) (t' : Fin termNum) :
    Links (parentOf s') (top s' t') (Function.update stk t l t') := by
  by_cases ht : t' = t
  · subst ht
    rw [Function.update_self]
    exact hself
  · rw [Function.update_of_ne ht, top_update_of_ne hcurPid ht]
    exact hother t' ht

/-- **Launching pushes.**  Both ways to start a process, a root shell on a terminal without
processes and a child of the running one, give the new process the top of its terminal as parent. -/
theorem stacked_launch (h : Stacked s stk) {p : ℕ} (hp : s.freePid = some p)
    {termInd : Option (Fin termNum)} {t : Fin termNum}
    (ht : termInd.getD (s.pcbs s.cur).termInd = t)
    (hparent : (if s.cur ≠ 0 ∧ termInd = none then some s.cur else none) = top s t) :
    Stacked (s.launch p termInd) (Function.update stk t (p :: stk t)) := by
  obtain ⟨hp₁, hp₂, hfree⟩ := freePid_spec hp
  have hnew : ∀ t', ∀ q ∈ stk t', q ≠ p := by
    rintro t' q hq rfl
    rw [(h.valid t' q hq).2.2] at hfree
    exact absurd hfree (by simp)
  have hself : (s.launch p termInd).pcbs p = ⟨top s t, 0, p, t, 1, fun _ => none⟩ := by
    rw [← hparent, ← ht]
    exact Function.update_self ..
  have hother : ∀ q, q ≠ p → (s.launch p termInd).pcbs q = s.pcbs q := fun q hq =>
    Function.update_of_ne hq ..
  have hcurPid : (s.launch p termInd).curPid = Function.update s.curPid t p := by rw [← ht]; rfl
  have hchain : ∀ t', Links (parentOf (s.launch p termInd)) (top s t') (stk t') := fun t' =>
    (h.links t').congr fun q hq => by rw [parentOf, hother q (hnew t' q hq), parentOf]
  have htop : top (s.launch p termInd) t = some p := top_update_self hcurPid (by omega)
  have hmem : ∀ t' q, q ∈ Function.update stk t (p :: stk t) t' → (q = p ∧ t' = t) ∨ q ∈ stk t' := by
    intro t' q hq
    rcases mem_update_iff.mp hq with ⟨rfl, hq⟩ | ⟨-, hq⟩
    · exact (List.mem_cons.mp hq).imp_left fun hqp => ⟨hqp, rfl⟩
    · exact Or.inr hq
  refine ⟨links_update hcurPid ⟨htop, ?_⟩ fun t' _ => hchain t', fun t' q hq => ?_,
    fun t' q hq => ?_, fun q hq => ?_, Or.inr ⟨?_, ?_⟩⟩
  · rw [parentOf, hself]
    exact hchain t
  · rcases hmem t' q hq with ⟨rfl, -⟩ | hq
    · exact ⟨hp₁, hp₂, Function.update_self ..⟩
    · obtain ⟨h₁, h₂, h₃⟩ := h.valid t' q hq
      exact ⟨h₁, h₂, (Function.update_of_ne (hnew t' q hq) ..).trans h₃⟩
  · rcases hmem t' q hq with ⟨rfl, rfl⟩ | hq
    · rw [hself]
      exact ⟨rfl, rfl⟩
    · rw [hother q (hnew t' q hq)]
      exact h.pcb t' q hq
  · by_cases hqp : q = p
    · exact ⟨t, mem_update_iff.mpr (Or.inl ⟨rfl, List.mem_cons.mpr (Or.inl hqp)⟩)⟩
    · have hold : s.pidUsed q = true := (Function.update_of_ne hqp ..).symm.trans hq
      obtain ⟨t', ht'⟩ := h.used q hold
      refine ⟨t', mem_update_iff.mpr ?_⟩
      by_cases htt : t' = t
      · exact Or.inl ⟨htt, List.mem_cons_of_mem _ (htt ▸ ht')⟩
      · exact Or.inr ⟨htt, ht'⟩
  · show p ≠ 0
    omega
  · refine ⟨?_, rfl, rfl⟩
    show top (s.launch p termInd) ((s.launch p termInd).pcbs p).termInd = some p
    rw [hself]
    exact htop

/-- The stack of the running process begins with it and its parent. -/
theorem Stacked.stack_cur (h : Stacked s stk) (hrun : Running s) {q : ℕ}
    (hpar : (s.pcbs s.cur).parent = some q) :
    ∃ rest, stk (s.pcbs s.cur).termInd = s.cur :: q :: rest := by
  have hl := h.links (s.pcbs s.cur).termInd
  rw [hrun.on_top] at hl
  cases hst : stk (s.pcbs s.cur).termInd with
  | nil =>
    rw [hst] at hl
    simp at hl
  | cons b l =>
    rw [hst] at hl
    obtain ⟨hb, hl⟩ := hl
    obtain rfl : s.cur = b := Option.some.inj hb
    rw [parentOf, hpar] at hl
    cases l with
    | nil => simp at hl
    | cons c l =>
      obtain rfl : q = c := Option.some.inj hl.1
      exact ⟨l, rfl⟩

/-- The end of a process whose PCB and whose parent's name them. -/
theorem halt_of_parent {q : ℕ} (hpar : (s.pcbs s.cur).parent = some q)
    (hpid : (s.pcbs s.cur).pid = s.cur) (hqpid : (s.pcbs q).pid = q) :
    s.halt = { s with
      userPage := taskPageIndex q
      esp0 := taskKstackBot q
      pidUsed := Function.update s.pidUsed s.cur false
      curPid := Function.update s.curPid (s.pcbs s.cur).termInd q
      cur := q } := by
  rw [halt, hpar]
  dsimp only
  rw [hpid, hqpid]

/-- **Halting pops**, unless the process is at the bottom of its stack. -/
theorem stacked_halt (h : Stacked s stk) (hcur : s.cur ≠ 0) : ∃ stk', Stacked s.halt stk' := by
  cases hpar : (s.pcbs s.cur).parent with
  | none =>
    rw [halt, hpar]
    exact ⟨stk, h⟩
  | some q =>
    obtain ⟨h0, -⟩ | ⟨-, hrun⟩ := h.cur
    · exact absurd h0 hcur
    obtain ⟨rest, hstk⟩ := h.stack_cur hrun hpar
    set t := (s.pcbs s.cur).termInd with ht
    have hl := h.links t
    rw [hstk] at hl
    have hpid : (s.pcbs s.cur).pid = s.cur := (h.pcb t s.cur (by rw [hstk]; simp)).1
    obtain ⟨hqpid, hqt⟩ := h.pcb t q (by rw [hstk]; simp)
    have hq0 : q ≠ 0 := by
      have := (h.valid t q (by rw [hstk]; simp)).1
      omega
    -- no stack that is left contains the process that halts
    have hleft : ∀ t', ∀ p ∈ Function.update stk t (q :: rest) t', p ≠ s.cur ∧ p ∈ stk t' := by
      intro t' p hp
      rcases mem_update_iff.mp hp with ⟨htt, hleft⟩ | ⟨htt, hold⟩
      · refine ⟨?_, by rw [htt, hstk]; exact List.mem_cons_of_mem _ hleft⟩
        rintro rfl
        exact (List.nodup_cons.mp hl.nodup).1 hleft
      · refine ⟨?_, hold⟩
        rintro rfl
        exact htt (h.pcb t' _ hold).2.symm
    rw [halt_of_parent hpar hpid hqpid]
    have htop : ∀ s' : Table, s'.curPid = Function.update s.curPid t q → top s' t = some q :=
      fun s' hs' => top_update_self hs' hq0
    refine ⟨Function.update stk t (q :: rest), links_update rfl ⟨htop _ rfl, hl.2.2⟩
      fun t' _ => h.links t', fun t' p hp => ?_, fun t' p hp => ?_, fun p hp => ?_,
      Or.inr ⟨hq0, ?_, rfl, rfl⟩⟩
    · obtain ⟨hpc, hp⟩ := hleft t' p hp
      obtain ⟨h₁, h₂, h₃⟩ := h.valid t' p hp
      exact ⟨h₁, h₂, (Function.update_of_ne hpc ..).trans h₃⟩
    · exact h.pcb t' p (hleft t' p hp).2
    · have hpc : p ≠ s.cur := by
        rintro rfl
        exact absurd ((Function.update_self ..).symm.trans hp) (by simp)
      obtain ⟨t', ht'⟩ := h.used p ((Function.update_of_ne hpc ..).symm.trans hp)
      refine ⟨t', mem_update_iff.mpr ?_⟩
      by_cases htt : t' = t
      · rw [htt, hstk] at ht'
        exact Or.inl ⟨htt, (List.mem_cons.mp ht').resolve_left hpc⟩
      · exact Or.inr ⟨htt, ht'⟩
    · show top _ (s.pcbs q).termInd = some q
      rw [hqt]
      exact htop _ rfl

/-- Switching to the top of a terminal changes no stack. -/
theorem stacked_switchTo (h : Stacked s stk) {t : Fin termNum} (ht : s.curPid t ≠ 0) :
    Stacked (s.switchTo (s.curPid t)) stk := by
  have hmem : s.curPid t ∈ stk t := (h.mem_iff t _).mpr ⟨ht, Relation.ReflTransGen.refl⟩
  unfold switchTo
  split
  · exact h
  · refine ⟨h.links, h.valid, h.pcb, h.used, Or.inr ⟨ht, ?_, rfl, rfl⟩⟩
    show top s (s.pcbs (s.curPid t)).termInd = some (s.curPid t)
    rw [(h.pcb t _ hmem).2, top_eq_some]
    exact ⟨ht, rfl⟩

/-! ## Whole runs -/

/-- The events of a run: a timer interrupt that finds a terminal without processes succeeds in
starting a shell there, and only a running process executes and halts. -/
def Proper (s : Table) : Event → Prop
  | .tick loads _ => s.curPid (s.curProcInd + 1) = 0 → s.freePid.isSome ∧ loads = true
  | .switchTerm _ => True
  | .execute _ => s.cur ≠ 0
  | .halt => s.cur ≠ 0

instance (s : Table) : (e : Event) → Decidable (Proper s e)
  | .tick _ _ => inferInstanceAs (Decidable (_ → _))
  | .switchTerm _ => inferInstanceAs (Decidable True)
  | .execute _ => inferInstanceAs (Decidable (_ ≠ _))
  | .halt => inferInstanceAs (Decidable (_ ≠ _))

/-- What a timer interrupt that starts a shell does. -/
theorem pitIsr_of_start {loads : Bool} {nextPid : ℕ} (hc : s.curPid (s.curProcInd + 1) = 0)
    {p : ℕ} (hp : s.freePid = some p) (hloads : loads = true) :
    s.pitIsr loads nextPid =
      ({ s with curProcInd := s.curProcInd + 1 } : Table).launch p (some (s.curProcInd + 1)) := by
  rw [pitIsr_eq, if_pos hc, starts_eq_some.mpr ⟨hloads, hp⟩]

/-- **One event** leads from stacks to stacks. -/
theorem stacked_step (h : Stacked s stk) (e : Event) (he : Proper s e) :
    ∃ stk', Stacked (step s e) stk' := by
  cases e with
  | tick loads nextPid =>
    have h' := h.of_same (s.curProcInd + 1) s.curTermInd
    by_cases hc : s.curPid (s.curProcInd + 1) = 0
    · obtain ⟨hsome, hloads⟩ := he hc
      obtain ⟨p, hp⟩ := Option.isSome_iff_exists.mp hsome
      rw [step, pitIsr_of_start hc hp hloads]
      refine ⟨_, stacked_launch h' hp rfl ?_⟩
      rw [if_neg (by simp)]
      exact (if_pos hc).symm
    · rw [step, pitIsr_eq, if_neg hc]
      exact ⟨stk, stacked_switchTo h' hc⟩
  | switchTerm ind => exact ⟨stk, h.of_same s.curProcInd ind⟩
  | execute loads =>
    rw [step, execute_eq]
    cases hp : s.starts loads with
    | none => exact ⟨stk, h⟩
    | some p =>
      obtain ⟨h0, -⟩ | ⟨-, hrun⟩ := h.cur
      · exact absurd h0 he
      · refine ⟨_, stacked_launch h (starts_eq_some.mp hp).2 rfl ?_⟩
        rw [if_pos ⟨he, rfl⟩]
        exact hrun.on_top.symm
  | halt => exact stacked_halt h he

end stacked

/-- **The process table is in order in every state.**  From boot, whatever the order of timer
interrupts, executes and halts. -/
theorem always_tableOk (pcbs : ℕ → PCB) (esp0 : ℕ) (es : List Event)
    (h : Meets step Proper (boot pcbs esp0) es) : Always step TableOk (boot pcbs esp0) es := by
  have hstk := always_of_meets (I := fun s => ∃ stk, Stacked s stk)
    (fun _ e ⟨_, hs⟩ he => stacked_step hs e he) ⟨_, stacked_boot pcbs esp0⟩ h
  intro es' hpre
  obtain ⟨stk, hs⟩ := hstk es' hpre
  exact hs.tableOk

/-- Three shells are started, with a program above the first one, which halts. -/
theorem always_tableOk_three_shells :
    let s := boot (fun _ => ⟨none, 0, 0, 0, 0, fun _ => none⟩) 0
    let es : List Event := [.tick true 0, .execute true, .tick true 0, .tick true 0, .tick true 0,
      .halt]
    Meets step Proper s es ∧ Always step TableOk s es := by
  intro s es
  have h : Meets step Proper s es :=
    ⟨by decide, by decide, by decide, by decide, by decide, by decide, trivial⟩
  exact ⟨h, always_tableOk _ _ _ h⟩

end Proc
end CoreOS
