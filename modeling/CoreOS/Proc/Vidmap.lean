import CoreOS.Proc.Chains

/-!
# Where `vidmap` paints

A program that has called `vidmap` paints through one page, `user_vidmem_page_table[0]`, and the
kernel points that page at the screen or at the backing page of the program's terminal.  Which of
the two is right depends on the running process and on the terminal on display, and each of the
events of a run can change one of them.  Only one of them, a timer interrupt that switches to
another process, sets the page.

`KeepsRoute` names the events that leave the page right: a terminal switch does if it does not
concern the terminal of the running process, and the start of a shell does if the page happens to be
the one the new process needs.  `routed_iff_keepsRoute` says that it names them all, and that the
timer interrupt repairs what the others have broken.
-/

namespace CoreOS
namespace Proc

open Runs Table

/-- The page for a process of terminal `t` while `displayed` is on display. -/
def route (t displayed : Fin termNum) : ℕ :=
  if t ≠ displayed then background1 + t else vidMemAddr

/-- **The page is the one the running process needs.** -/
def Routed (s : Table) : Prop :=
  s.cur ≠ 0 → s.vidmemPage = route (s.pcbs s.cur).termInd s.curTermInd

/-- The events that leave the page right. -/
def KeepsRoute (s : Table) : Event → Prop
  | .tick _ _ => s.curPid (s.curProcInd + 1) = 0 →
      s.vidmemPage = route (s.curProcInd + 1) s.curTermInd
  | .switchTerm ind => s.cur ≠ 0 → ind = s.curTermInd ∨
      ((s.pcbs s.cur).termInd ≠ s.curTermInd ∧ (s.pcbs s.cur).termInd ≠ ind)
  | _ => True

/-- The next timer interrupt switches to another process. -/
def Switches (s : Table) : Prop :=
  s.curPid (s.curProcInd + 1) ≠ 0 ∧ (s.pcbs s.cur).pid ≠ s.curPid (s.curProcInd + 1)

/-- The screen and the backing pages are different pages. -/
theorem route_eq_iff (t d d' : Fin termNum) :
    route t d = route t d' ↔ d' = d ∨ (t ≠ d ∧ t ≠ d') := by
  have hpage : background1 + t ≠ vidMemAddr := by
    rw [background1, vidMemAddr]
    omega
  unfold route
  by_cases hd : t = d
  · by_cases hd' : t = d'
    · simp [← hd, ← hd']
    · rw [if_neg (by simpa using hd), if_pos hd']
      refine iff_of_false hpage.symm ?_
      rintro (rfl | ⟨h, -⟩)
      · exact hd' hd
      · exact h hd
  · by_cases hd' : t = d'
    · rw [if_pos hd, if_neg (by simpa using hd')]
      refine iff_of_false hpage ?_
      rintro (rfl | ⟨-, h⟩)
      · exact hd hd'
      · exact h hd'
    · rw [if_pos hd, if_pos hd']
      exact iff_of_true rfl (Or.inr ⟨hd, hd'⟩)

section steps

variable {s : Table} {stk : Fin termNum → List ℕ}

/-- A timer interrupt that switches to another process sets the page. -/
theorem routed_of_switches (h : Switches s) (loads : Bool) (nextPid : ℕ) :
    Routed (step s (.tick loads nextPid)) := by
  intro _
  rw [step, pitIsr_eq, if_neg h.1, switchTo, if_neg h.2]
  rfl

theorem routed_tick_iff (hP : Routed s) {loads : Bool} {nextPid : ℕ}
    (he : Proper s (.tick loads nextPid)) :
    Routed (step s (.tick loads nextPid)) ↔ KeepsRoute s (.tick loads nextPid) := by
  by_cases hc : s.curPid (s.curProcInd + 1) = 0
  · obtain ⟨hsome, hloads⟩ := he hc
    obtain ⟨p, hp⟩ := Option.isSome_iff_exists.mp hsome
    have hp0 : p ≠ 0 := by
      have := (freePid_spec hp).1
      omega
    rw [step, pitIsr_of_start hc hp hloads]
    have hterm : ((launch { s with curProcInd := s.curProcInd + 1 } p
        (some (s.curProcInd + 1))).pcbs p).termInd = s.curProcInd + 1 := by
      simp [launch]
    show (p ≠ 0 → s.vidmemPage = route ((launch { s with curProcInd := s.curProcInd + 1 } p
      (some (s.curProcInd + 1))).pcbs p).termInd s.curTermInd) ↔ _
    rw [hterm]
    exact ⟨fun h _ => h hp0, fun h _ => h hc⟩
  · refine iff_of_true ?_ (fun h => absurd h hc)
    by_cases hsame : (s.pcbs s.cur).pid = s.curPid (s.curProcInd + 1)
    · rw [step, pitIsr_eq, if_neg hc, switchTo, if_pos hsame]
      exact hP
    · exact routed_of_switches ⟨hc, hsame⟩ loads nextPid

theorem routed_switchTerm_iff (hP : Routed s) (ind : Fin termNum) :
    Routed (step s (.switchTerm ind)) ↔ KeepsRoute s (.switchTerm ind) := by
  show (s.cur ≠ 0 → s.vidmemPage = route (s.pcbs s.cur).termInd ind) ↔
    (s.cur ≠ 0 → _)
  refine forall_congr' fun hcur => ?_
  rw [hP hcur]
  exact route_eq_iff _ _ _

/-- A child runs on the terminal of its parent. -/
theorem routed_execute (hP : Routed s) {loads : Bool} (hcur : s.cur ≠ 0) :
    Routed (step s (.execute loads)) := by
  rw [step, execute_eq]
  cases s.starts loads with
  | none => exact hP
  | some p =>
    intro _
    have hterm : ((s.launch p none).pcbs p).termInd = (s.pcbs s.cur).termInd := by simp [launch]
    show s.vidmemPage = route ((s.launch p none).pcbs p).termInd s.curTermInd
    rw [hterm]
    exact hP hcur

/-- So does the parent that is returned to. -/
theorem routed_halt (h : Stacked s stk) (hP : Routed s) (hcur : s.cur ≠ 0) :
    Routed (step s .halt) := by
  rw [step, halt]
  cases hpar : (s.pcbs s.cur).parent with
  | none => exact hP
  | some q =>
    obtain ⟨h0, -⟩ | ⟨-, hrun⟩ := h.cur
    · exact absurd h0 hcur
    obtain ⟨rest, hstk⟩ := h.stack_cur hrun hpar
    intro _
    have hterm : (s.pcbs q).termInd = (s.pcbs s.cur).termInd :=
      (h.pcb _ q (by rw [hstk]; simp)).2
    show s.vidmemPage = route (s.pcbs q).termInd s.curTermInd
    rw [hterm]
    exact hP hcur

/-- **One event**, from a state in which the page is right. -/
theorem routed_step_iff (h : Stacked s stk) (hP : Routed s) (e : Event) (he : Proper s e) :
    Routed (step s e) ↔ KeepsRoute s e := by
  cases e with
  | tick loads nextPid => exact routed_tick_iff hP he
  | switchTerm ind => exact routed_switchTerm_iff hP ind
  | execute loads => exact iff_of_true (routed_execute hP he) trivial
  | halt => exact iff_of_true (routed_halt h hP he) trivial

end steps

/-- **When the page is right.**  In any state reached from boot: if the page is right there, it stays
right throughout a continuation of the run exactly when every event of the continuation meets
`KeepsRoute`; and right or not, a timer interrupt that switches to another process makes it so. -/
theorem routed_iff_keepsRoute (pcbs : ℕ → PCB) (esp0 : ℕ) (es es' : List Event)
    (h : Meets step Proper (boot pcbs esp0) (es ++ es')) :
    let s := run step (boot pcbs esp0) es
    (Routed s → (Always step Routed s es' ↔ Meets step KeepsRoute s es')) ∧
      (Switches s → ∀ loads nextPid, Routed (step s (.tick loads nextPid))) := by
  intro s
  obtain ⟨hes, hes'⟩ := (meets_append ..).mp h
  have hstk : ∃ stk, Stacked s stk :=
    invariant_of_meets (I := fun s => ∃ stk, Stacked s stk)
      (fun _ e ⟨_, hs⟩ he => stacked_step hs e he) ⟨_, stacked_boot pcbs esp0⟩ hes
  refine ⟨fun hP => ?_, routed_of_switches⟩
  exact always_iff_meets (I := fun s => ∃ stk, Stacked s stk)
    (fun _ e ⟨_, hs⟩ he => stacked_step hs e he)
    (fun _ e ⟨_, hs⟩ he hP => routed_step_iff hs hP e he) hstk hP hes'

/-- The display is switched to terminal 1 before the first timer interrupt starts a shell there, which
executes a program that ends. -/
theorem routed_iff_keepsRoute_first_shell :
    let s₀ := boot (fun _ => ⟨none, 0, 0, 0, 0, fun _ => none⟩) 0
    let es : List Event := [.tick true 0, .execute true, .halt]
    Meets step Proper s₀ ([.switchTerm 1] ++ es) ∧ Always step Routed (run step s₀ [.switchTerm 1]) es := by
  intro s₀ es
  have h : Meets step Proper s₀ ([.switchTerm 1] ++ es) :=
    ⟨by decide, by decide, by decide, by decide, trivial⟩
  have hkeeps : Meets step KeepsRoute (run step s₀ [.switchTerm 1]) es :=
    ⟨fun _ => by decide, trivial, trivial, trivial⟩
  exact ⟨h, ((routed_iff_keepsRoute _ _ _ es h).1 fun hcur => absurd rfl hcur).mpr hkeeps⟩

/-- The first timer interrupt after boot starts a shell on terminal 1 while terminal 0 is on display,
and leaves the page pointing at the screen.  If terminal 1 is on display by then, the page is right, and
the display is switched back while it still points at the screen. -/
theorem not_always_routed :
    let s₀ := boot (fun _ => ⟨none, 0, 0, 0, 0, fun _ => none⟩) 0
    let es : List Event := [.switchTerm 1, .tick true 0]
    Meets step Proper s₀ [.tick true 0] ∧ ¬ Routed (run step s₀ [.tick true 0]) ∧
      Meets step Proper s₀ (es ++ [.switchTerm 0]) ∧ Routed (run step s₀ es) ∧
      ¬ Routed (run step s₀ (es ++ [.switchTerm 0])) := by
  intro s₀ es
  refine ⟨⟨by decide, trivial⟩, fun h => ?_, ⟨by decide, by decide, by decide, trivial⟩,
    fun _ => by decide, fun h => ?_⟩
  · exact absurd (h (by decide)) (by decide)
  · exact absurd (h (by decide)) (by decide)

end Proc
end CoreOS
