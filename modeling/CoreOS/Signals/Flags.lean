import CoreOS.Signals.Nesting

/-!
# The flags of a program that takes a signal

The copy of the context that `check_signals` makes has the flags in it, and `_syscall_sigreturn` takes
back all of the copy that a program can see, except for them.  So a program goes on with the flags
that are there when the linkage makes its system call.  These are not even the flags the handler
leaves, since the linkage moves the stack pointer with an `add`.

A signal that comes between a comparison and its jump can send the program the wrong way.  It goes
right exactly when the flags happen to be those of the delivery.
-/

namespace CoreOS
namespace Signals

/-- The flags with which `sigreturn_linkage` makes its system call, if a handler executes `ret` now. -/
def linkageFlags (t : Task) : Word := addFlags t.cpu.eflags (t.cpu.esp + 4) 4

/-- A handler that returns leads to a context, and to a program, with the flags of the matching
delivery. -/
def Watch.KeepsFlags (linkage : Word) (w : Watch) : Op → Prop
  | .ret => ∀ f ∈ w.frames.head?,
      (w.task.ret.sigreturn linkage).context.eflags = f.context.eflags ∧
        (w.task.handlerRet linkage).cpu.eflags = f.context.eflags
  | _ => True

/-- When a handler returns, the linkage has the flags of the matching delivery. -/
def Watch.FlagsMatch (w : Watch) : Op → Prop
  | .ret => ∀ f ∈ w.frames.head?, linkageFlags w.task = f.context.eflags
  | _ => True

instance (w : Watch) : (o : Op) → Decidable (w.FlagsMatch o)
  | .ret => inferInstanceAs (Decidable (∀ _ ∈ _, _))
  | .run _ _ => inferInstanceAs (Decidable True)
  | .raise _ => inferInstanceAs (Decidable True)
  | .setHandler _ _ => inferInstanceAs (Decidable True)
  | .interrupt _ _ => inferInstanceAs (Decidable True)
  | .write _ _ => inferInstanceAs (Decidable True)

section

variable {linkage : Word} {w : Watch} {o : Op}

/-- No signal changes the flags on its way to a handler. -/
theorem eflags_checkSignals (t : Trap) :
    (t.checkSignals linkage).context.eflags = t.context.eflags := by
  have hloop : ∀ (is : List (Fin sigSize)) (t : Trap),
      (t.checkFrom linkage is).context.eflags = t.context.eflags := by
    intro is
    induction is with
    | nil => exact fun t => rfl
    | cons i is ih =>
      intro t
      have hhalt : (t.clearSignal i).halt.context.eflags = t.context.eflags :=
        Trap.eflags_halt (t.clearSignal i)
      unfold Trap.checkFrom
      split
      · exact ih t
      · dsimp only
        split
        · rfl
        · split
          · split
            · exact hhalt
            · exact (ih _).trans hhalt
          · exact ih (t.clearSignal i)
  rw [Trap.checkSignals]
  split
  · rfl
  · split
    · rfl
    · exact hloop _ t

theorem eflags_leave (t : Trap) : (t.leave linkage).cpu.eflags = t.context.eflags :=
  eflags_checkSignals t

/-- **One return.** -/
theorem keepsFlags_iff (h : Stacked linkage w.task.mem w.frames) (ho : w.WellNested o) :
    w.KeepsFlags linkage o ↔ w.FlagsMatch o := by
  cases o with
  | ret =>
    obtain ⟨g, hg, hesp⟩ := ho
    have hg' := List.mem_of_mem_head? hg
    obtain ⟨hlinkage, -, hcontext⟩ := sigreturn_context (h.intact g hg') hesp
    have hflags : (w.task.ret.sigreturn linkage).context.eflags = linkageFlags w.task := by
      rw [hcontext]
      rfl
    have hresumed : (w.task.handlerRet linkage).cpu.eflags = linkageFlags w.task := by
      rw [Task.handlerRet, if_pos hlinkage, eflags_leave, hflags]
    constructor
    · intro hkeeps f hf
      rw [← hflags]
      exact (hkeeps f hf).1
    · intro hmatch f hf
      exact ⟨hflags.trans (hmatch f hf), hresumed.trans (hmatch f hf)⟩
  | run cpu mem => exact Iff.rfl
  | raise i => exact Iff.rfl
  | setHandler i handler => exact Iff.rfl
  | interrupt error irqNum => exact Iff.rfl
  | write k v => exact Iff.rfl

/-- **A signal is transparent to the flags exactly if they happen to match.**  In every run of a
program that is well nested, each return of a handler gives the program the flags of the matching
delivery if and only if at each return the linkage has these flags. -/
theorem sigreturn_keepsFlags_iff (linkage : Word) (t : Task) (ops : List Op)
    (h : Runs.Meets (Watch.step linkage) Watch.WellNested ⟨t, []⟩ ops) :
    Runs.Meets (Watch.step linkage) (Watch.KeepsFlags linkage) ⟨t, []⟩ ops ↔
      Runs.Meets (Watch.step linkage) Watch.FlagsMatch ⟨t, []⟩ ops := by
  have hkeep : ∀ (w : Watch) (o : Op), Stacked linkage w.task.mem w.frames → w.WellNested o →
      Stacked linkage (w.step linkage o).task.mem (w.step linkage o).frames :=
    fun w o hw ho => (hw.step ho).1
  constructor
  · intro hkeeps
    exact (h.and hkeeps).imp (I := fun w => Stacked linkage w.task.mem w.frames)
      (fun w o hw ho => hkeep w o hw ho.1) (fun w o hw ho => (keepsFlags_iff hw ho.1).mp ho.2)
      Stacked.nil
  · intro hmatch
    exact (h.and hmatch).imp (I := fun w => Stacked linkage w.task.mem w.frames)
      (fun w o hw ho => hkeep w o hw ho.1) (fun w o hw ho => (keepsFlags_iff hw ho.1).mpr ho.2)
      Stacked.nil

/-- A program whose flags the linkage happens to leave as they were. -/
theorem sigreturn_keepsFlags_iff_lucky :
    let t : Task := { alarmed with cpu := { alarmed.cpu with eflags := 0x202 } }
    Runs.Meets (Watch.step 0x400800) (Watch.KeepsFlags 0x400800) ⟨t, []⟩ [.interrupt 0 (-1), .ret] := by
  intro t
  let w := Watch.step 0x400800 ⟨t, []⟩ (.interrupt 0 (-1))
  have hret : ∃ f ∈ w.frames.head?, w.task.cpu.esp = f.base := by decide +kernel
  have hnested : Runs.Meets (Watch.step 0x400800) Watch.WellNested ⟨t, []⟩
      [.interrupt 0 (-1), .ret] := by
    refine ⟨?_, hret, trivial⟩
    rintro f ⟨⟩
  exact (sigreturn_keepsFlags_iff 0x400800 t _ hnested).mpr (by decide +kernel)

/-- An alarm between a comparison of equals and its jump: the zero flag is lost, whatever the handler
does, since the linkage moves the stack pointer. -/
theorem sigreturn_loses_zeroFlag :
    let linkage : Word := 0x400800
    let ops : List Op := [.interrupt 0 (-1), .ret]
    Runs.Meets (Watch.step linkage) Watch.WellNested ⟨alarmed, []⟩ ops ∧
      ¬ Runs.Meets (Watch.step linkage) (Watch.KeepsFlags linkage) ⟨alarmed, []⟩ ops ∧
      alarmed.cpu.eflags.getLsbD 6 = true ∧
      (Runs.run (Watch.step linkage) ⟨alarmed, []⟩ ops).task.cpu.eflags.getLsbD 6 = false := by
  intro linkage ops
  let w := Watch.step linkage ⟨alarmed, []⟩ (.interrupt 0 (-1))
  have hret : ∃ f ∈ w.frames.head?, w.task.cpu.esp = f.base := by decide +kernel
  refine ⟨⟨?_, hret, trivial⟩, ?_, by decide +kernel, by decide +kernel⟩
  · rintro f ⟨⟩
  · rintro ⟨-, hkeeps, -⟩
    have hlost : ∃ f ∈ w.frames.head?, (w.task.handlerRet linkage).cpu.eflags ≠ f.context.eflags := by
      decide +kernel
    obtain ⟨f, hf, hne⟩ := hlost
    exact hne (hkeeps f hf).2

end

end Signals
end CoreOS
