import CoreOS.Lib.Runs
import CoreOS.Signals.Delivery
import Mathlib.Tactic.Abel

/-!
# Handlers return to where their signals came

A handler runs on the stack of the program, below the frame with the registers that were interrupted.
While it runs it can be interrupted itself, by another signal or by the same one, so that frames pile
up.  Nothing in the kernel knows of them: what `_syscall_sigreturn` takes back is whatever is above
the stack pointer when it is called.

`Watch` follows a program from outside and keeps a list of the frames whose handlers have not
returned, the newest first, each with the context of its delivery.  `WellNested` says what is asked of
the program: it leaves the frames alone, it keeps its stack pointer below them, and a handler returns
with the stack as it found it.  A handler may write to the saved registers of its own frame.  Then the
frames are all there, `Stacked`, and each return finds the right one.

The flags are another matter.  They are in the frame, and they are not taken back.
-/

namespace CoreOS
namespace Signals

/-! ## Frames -/

/-- A delivery whose handler has not returned: the context of the program, the number of the signal,
and what the handler has written to the saved registers, in order. -/
structure Frame where
  context : HwContext
  signum : Fin sigSize
  written : List (Fin 10 × Word)

/-- The words of a frame: the return address, the number of the signal, the context. -/
def frameWords : ℕ := contextSize + 2

namespace Frame

/-- Where the frame is, and the stack pointer when the handler begins. -/
def base (f : Frame) : Word := f.context.esp - BitVec.ofNat 32 (4 * frameWords)

/-- The registers the program is to go on with: those of the delivery, but for what has been written
over. -/
def regs (f : Frame) : Fin 10 → Word :=
  f.written.foldl (fun r p => Function.update r p.1 p.2) f.context.regs

/-- The saved context. -/
def saved (f : Frame) : HwContext := { f.context with regs := f.regs }

/-- The frame in memory. -/
def words (linkage : Word) (f : Frame) : List Word :=
  linkage :: BitVec.ofNat 32 f.signum :: f.saved.words

@[simp] theorem length_words (linkage : Word) (f : Frame) : (f.words linkage).length = frameWords :=
  rfl

/-- The frame after the handler has written to a saved register. -/
def write (f : Frame) (k : Fin 10) (v : Word) : Frame := { f with written := f.written ++ [(k, v)] }

theorem saved_write (f : Frame) (k : Fin 10) (v : Word) : (f.write k v).saved = f.saved.setReg k v := by
  rw [saved, regs, write, List.foldl_append]
  rfl

end Frame

/-- There is room for one more frame between a stack pointer and a frame above it. -/
def Clear (esp : Word) (f : Frame) : Prop :=
  (f.base - esp).toNat + 2 * (4 * frameWords) ≤ 2 ^ 32

instance (esp : Word) (f : Frame) : Decidable (Clear esp f) := inferInstanceAs (Decidable (_ ≤ _))

/-- The frame is in memory. -/
def Intact (linkage : Word) (mem : Memory 32) (f : Frame) : Prop :=
  mem.loadWords f.base frameWords = f.words linkage

/-- The frames are in memory, and each was put below those that were there before. -/
structure Stacked (linkage : Word) (mem : Memory 32) (fs : List Frame) : Prop where
  intact : ∀ f ∈ fs, Intact linkage mem f
  below : fs.Pairwise fun f g => Clear f.context.esp g

section frames

variable {linkage : Word} {mem mem' : Memory 32} {f : Frame} {fs : List Frame} {esp : Word}

theorem Intact.congr (h : Intact linkage mem f)
    (hsame : mem.SameOn mem' f.base (4 * frameWords)) : Intact linkage mem' f :=
  (Memory.loadWords_congr hsame).trans h

/-- A block that is put below a stack pointer does not meet a frame above. -/
theorem Clear.outside (h : Clear esp f) {x : Word} (hx : (x - f.base).toNat < 4 * frameWords) :
    4 * frameWords ≤ (x - (esp - BitVec.ofNat 32 (4 * frameWords))).toNat := by
  have hsum : x - (esp - BitVec.ofNat 32 (4 * frameWords)) =
      (x - f.base) + (f.base - esp) + BitVec.ofNat 32 (4 * frameWords) := by
    abel
  unfold Clear at h
  have hsize : (BitVec.ofNat 32 (4 * frameWords)).toNat = 4 * frameWords := rfl
  rw [hsum, BitVec.toNat_add, BitVec.toNat_add, hsize, Nat.mod_eq_of_lt (by omega),
    Nat.mod_eq_of_lt (by omega)]
  omega

theorem Stacked.nil : Stacked linkage mem [] where
  intact := by
    rintro f ⟨⟩
  below := List.Pairwise.nil

theorem Stacked.congr (h : Stacked linkage mem fs)
    (hsame : ∀ f ∈ fs, mem.SameOn mem' f.base (4 * frameWords)) : Stacked linkage mem' fs :=
  ⟨fun f hf => (h.intact f hf).congr (hsame f hf), h.below⟩

/-! ## Delivery -/

/-- **What a delivery does to memory**: a frame is put below the stack pointer. -/
theorem deliver_mem (t : Trap) (i : Fin sigSize) : (t.deliver linkage i).mem =
    t.mem.storeWords (Frame.base ⟨t.context, i, []⟩) (Frame.words linkage ⟨t.context, i, []⟩) := by
  have hbase : t.context.esp - BitVec.ofNat 32 (4 * contextSize) - 4 - 4 =
      Frame.base ⟨t.context, i, []⟩ := by
    rw [sub_sub, sub_sub]
    rfl
  have hsignum : t.context.esp - BitVec.ofNat 32 (4 * contextSize) - 4 =
      Frame.base ⟨t.context, i, []⟩ + 4 := by
    rw [← hbase, sub_add_cancel]
  have hcontext : t.context.esp - BitVec.ofNat 32 (4 * contextSize) =
      Frame.base ⟨t.context, i, []⟩ + 4 + 4 := by
    rw [← hsignum, sub_add_cancel]
  show ((t.mem.storeWords _ t.context.words).storeWord _ _).storeWord _ _ = _
  have hfits : 4 * (t.context.words.length + 2) ≤ 2 ^ 32 := by
    rw [HwContext.length_words]
    decide
  rw [hbase, hsignum, hcontext, Memory.storeWord_storeWords _ _ _ _ (by omega),
    Memory.storeWord_storeWords _ _ _ _ hfits]
  rfl

/-- **A delivery below the frames.** -/
theorem Stacked.deliver {t : Trap} (h : Stacked linkage t.mem fs)
    (hclear : ∀ f ∈ fs, Clear t.context.esp f) (i : Fin sigSize) :
    Stacked linkage (t.deliver linkage i).mem (⟨t.context, i, []⟩ :: fs) := by
  have hsame : ∀ f ∈ fs, t.mem.SameOn (t.deliver linkage i).mem f.base (4 * frameWords) := by
    intro f hf x hx
    rw [deliver_mem]
    exact Memory.storeWords_of_outside _ ((hclear f hf).outside hx)
  have hrest := h.congr hsame
  refine ⟨?_, List.pairwise_cons.mpr ⟨hclear, hrest.below⟩⟩
  intro f hf
  rcases List.mem_cons.mp hf with rfl | hf
  · have hfits : 4 * (Frame.words linkage ⟨t.context, i, []⟩).length ≤ 2 ^ 32 := by
      rw [Frame.length_words]
      decide
    rw [Intact, deliver_mem]
    exact Memory.loadWords_storeWords _ _ _ hfits
  · exact hrest.intact f hf

end frames

/-! ## A program, from outside -/

/-- The frames after the loop of `check_signals`.  A program that begins again, or is left, will not
return from the handlers it was in. -/
def framesFrom (linkage : Word) : List (Fin sigSize) → Trap → List Frame → List Frame
  | [], _, fs => fs
  | i :: is, t, fs =>
    if t.pcb.signals &&& sigFlag i = 0 then framesFrom linkage is t fs
    else
      let t := t.clearSignal i
      if t.pcb.signalHandlers i ≠ 0 then ⟨t.context, i, []⟩ :: fs
      else if i.val < 3 then
        let t := t.halt
        if t.halted then [] else framesFrom linkage is t []
      else framesFrom linkage is t fs

/-- The frames after `check_signals`. -/
def framesAfter (linkage : Word) (t : Trap) (fs : List Frame) : List Frame :=
  if t.pcb.signals = 0 then fs
  else if t.context.cs ≠ userCs then fs
  else framesFrom linkage (List.finRange sigSize) t fs

/-- **`check_signals`, below the frames that are there.** -/
theorem Stacked.checkSignals {linkage : Word} {t : Trap} {fs : List Frame}
    (h : Stacked linkage t.mem fs) (hclear : ∀ f ∈ fs, Clear t.context.esp f) :
    Stacked linkage (t.checkSignals linkage).mem (framesAfter linkage t fs) := by
  have hloop : ∀ (is : List (Fin sigSize)) (t : Trap) (fs : List Frame), Stacked linkage t.mem fs →
      (∀ f ∈ fs, Clear t.context.esp f) →
      Stacked linkage (t.checkFrom linkage is).mem (framesFrom linkage is t fs) := by
    intro is
    induction is with
    | nil => exact fun t fs h _ => h
    | cons i is ih =>
      intro t fs h hclear
      rw [Trap.checkFrom, framesFrom]
      split
      · exact ih t fs h hclear
      · dsimp only
        split
        · exact Stacked.deliver (t := t.clearSignal i) h hclear i
        · split
          · split
            · exact Stacked.nil
            · refine ih _ [] Stacked.nil ?_
              rintro f ⟨⟩
          · exact ih (t.clearSignal i) fs h hclear
  rw [Trap.checkSignals, framesAfter]
  split
  · exact h
  · split
    · exact h
    · exact hloop _ t fs h hclear

/-- A program and the frames of its handlers. -/
structure Watch where
  task : Task
  frames : List Frame

/-- What happens to a program: it runs, a signal is raised for it, it sets a handler, it is
interrupted, its newest handler writes to a saved register, a handler executes `ret`. -/
inductive Op where
  | run (cpu : Cpu) (mem : Memory 32)
  | raise (i : Fin sigSize)
  | setHandler (i : Fin sigSize) (handler : Word)
  | interrupt (error irqNum : Word)
  | write (k : Fin 10) (v : Word)
  | ret

namespace Frame

/-- Where a saved register is. -/
def regAddr (f : Frame) (k : Fin 10) : Word := f.base + BitVec.ofNat 32 (4 * (k + 2))

end Frame

/-- The program and its frames after an operation, as long as it has not halted. -/
def Watch.perform (linkage : Word) (w : Watch) : Op → Watch
  | .run cpu mem => { w with task := { w.task with cpu := cpu, mem := mem } }
  | .raise i =>
    let pcb := { w.task.pcb with signals := w.task.pcb.signals ||| sigFlag i }
    { w with task := { w.task with pcb := pcb } }
  | .setHandler i handler =>
    let handlers := Function.update w.task.pcb.signalHandlers i handler
    { w with task := { w.task with pcb := { w.task.pcb with signalHandlers := handlers } } }
  | .interrupt error irqNum =>
    { task := w.task.interrupt linkage error irqNum
      frames := framesAfter linkage (w.task.enter error irqNum) w.frames }
  | .write k v =>
    match w.frames with
    | [] => w
    | f :: fs =>
      { task := { w.task with mem := w.task.mem.storeWord (f.regAddr k) v }
        frames := f.write k v :: fs }
  | .ret =>
    { task := w.task.handlerRet linkage
      frames :=
        if w.task.ret.cpu.eip = linkage then
          framesAfter linkage (w.task.ret.sigreturn linkage) w.frames.tail
        else w.frames }

/-- One operation. -/
def Watch.step (linkage : Word) (w : Watch) (o : Op) : Watch :=
  if w.task.halted then w else w.perform linkage o

/-- What is asked of a program and its handlers. -/
def Watch.WellNested (w : Watch) : Op → Prop
  | .run _ mem => ∀ f ∈ w.frames, w.task.mem.SameOn mem f.base (4 * frameWords)
  | .interrupt _ _ => ∀ f ∈ w.frames, Clear w.task.cpu.esp f
  | .write _ _ => w.frames ≠ []
  | .ret => ∃ f ∈ w.frames.head?, w.task.cpu.esp = f.base
  | _ => True

/-- The return of a handler leads to the linkage, and `_syscall_sigreturn` gives the program the
address, the stack pointer and the registers of the matching delivery, but for the registers that the
handler has written over. -/
def Watch.Restores (linkage : Word) (w : Watch) : Op → Prop
  | .ret => ∀ f ∈ w.frames.head?,
      w.task.ret.cpu.eip = linkage ∧
        (w.task.ret.sigreturn linkage).context.addr = f.context.addr ∧
        (w.task.ret.sigreturn linkage).context.esp = f.context.esp ∧
        (w.task.ret.sigreturn linkage).context.regs = f.regs
  | _ => True

section run

variable {linkage : Word} {w : Watch} {o : Op} {f : Frame} {fs : List Frame}

/-- Assembly code that loads a word of a context and stores it back changes nothing. -/
theorem HwContext.setWord_word (c : HwContext) {offset : ℕ} (h : offset / 4 < contextSize) :
    c.setWord offset (c.word offset) = c := by
  have hlen : offset / 4 < c.words.length := h
  rw [setWord, word, List.getD_eq_getElem _ _ hlen, List.set_getElem_self, ofWords_words]

/-- **The return of a handler.** -/
theorem sigreturn_context {t : Task} (h : Intact linkage t.mem f) (hesp : t.cpu.esp = f.base) :
    t.ret.cpu.eip = linkage ∧ (t.ret.sigreturn linkage).mem = t.mem ∧
      (t.ret.sigreturn linkage).context =
        { ((t.ret.runLinkage linkage).enter 0 0).context with
          esp := f.context.esp
          addr := f.context.addr
          regs := f.regs } := by
  have hwords : t.mem.loadWord f.base :: t.mem.loadWord (f.base + 4) ::
      t.mem.loadWords (f.base + 4 + 4) contextSize = linkage :: BitVec.ofNat 32 f.signum ::
        f.saved.words := h
  obtain ⟨hlinkage, htail⟩ := List.cons.inj hwords
  have hsaved : t.mem.loadWords (f.base + 4 + 4) contextSize = f.saved.words := (List.cons.inj htail).2
  refine ⟨?_, ?_⟩
  · rw [← hlinkage, ← hesp]
    rfl
  · have hcall : syscallOf (((t.ret.runLinkage linkage).enter 0 0).context.word 24) =
        some .sigreturn := by
      show syscallOf 10 = some .sigreturn
      decide
    have hframe : t.mem.loadWords (t.cpu.esp + 4 + 4) contextSize = f.saved.words := by
      rw [hesp]
      exact hsaved
    rw [Task.sigreturn, Trap.handleSyscall, hcall]
    dsimp only
    rw [HwContext.setWord_word _ (by decide)]
    refine ⟨rfl, ?_⟩
    show ({ ((t.ret.runLinkage linkage).enter 0 0).context with
      esp := (HwContext.ofWords (t.mem.loadWords (t.cpu.esp + 4 + 4) contextSize)).esp
      addr := (HwContext.ofWords (t.mem.loadWords (t.cpu.esp + 4 + 4) contextSize)).addr
      regs := (HwContext.ofWords (t.mem.loadWords (t.cpu.esp + 4 + 4) contextSize)).regs } :
        HwContext) = _
    rw [hframe, HwContext.ofWords_words]
    rfl

/-- A write of the handler to its own frame. -/
theorem Stacked.write {mem : Memory 32} (h : Stacked linkage mem (f :: fs)) (k : Fin 10) (v : Word) :
    Stacked linkage (mem.storeWord (f.regAddr k) v) (f.write k v :: fs) := by
  obtain ⟨hclear, hbelow⟩ := List.pairwise_cons.mp h.below
  have hk : (k : ℕ) + 2 < frameWords := (Nat.add_lt_add_right k.isLt 2).trans (by decide)
  refine ⟨?_, List.pairwise_cons.mpr ⟨hclear, hbelow⟩⟩
  intro g hg
  rcases List.mem_cons.mp hg with rfl | hg
  · have hintact : Intact linkage mem f := h.intact f List.mem_cons_self
    unfold Intact at hintact ⊢
    rw [Frame.words, Frame.saved_write, HwContext.words_setReg]
    refine (Memory.loadWords_storeWord (by decide) hk mem f.base v).trans ?_
    rw [hintact]
    rfl
  · refine (h.intact g (List.mem_cons_of_mem f hg)).congr fun x hx => ?_
    -- the word is inside the frame of the handler, and that is outside of the older one
    have hout := (hclear g hg).outside hx
    refine Memory.storeWord_of_outside ?_ v
    have hpos := Memory.toNat_sub_le_add x f.base (4 * (k + 2))
    exact Nat.le_of_add_le_add_right (Nat.le_trans (by omega) (hout.trans hpos))

theorem mem_leave (t : Trap) : (t.leave linkage).mem = (t.checkSignals linkage).mem := rfl

/-- **One operation.** -/
theorem Stacked.step (h : Stacked linkage w.task.mem w.frames) (ho : w.WellNested o) :
    Stacked linkage (w.step linkage o).task.mem (w.step linkage o).frames ∧ w.Restores linkage o := by
  refine ⟨?_, ?_⟩
  · rw [Watch.step]
    split
    · exact h
    cases o with
    | run cpu mem => exact h.congr ho
    | raise i => exact h
    | setHandler i handler => exact h
    | interrupt error irqNum =>
      exact Stacked.checkSignals (t := w.task.enter error irqNum) h ho
    | write k v =>
      obtain ⟨task, frames⟩ := w
      cases frames with
      | nil => exact absurd rfl ho
      | cons f fs => exact h.write k v
    | ret =>
      obtain ⟨f, hf, hesp⟩ := ho
      obtain ⟨task, frames⟩ := w
      cases frames with
      | nil => cases hf
      | cons g fs =>
        have hfg : g = f := Option.some.inj hf
        subst hfg
        obtain ⟨hlinkage, hmem, hcontext⟩ :=
          sigreturn_context (h.intact g List.mem_cons_self) hesp
        obtain ⟨hclear, hbelow⟩ := List.pairwise_cons.mp h.below
        have hrest : Stacked linkage (task.ret.sigreturn linkage).mem fs := by
          rw [hmem]
          exact ⟨fun f hf => h.intact f (List.mem_cons_of_mem g hf), hbelow⟩
        have hesp' : (task.ret.sigreturn linkage).context.esp = g.context.esp := by
          rw [hcontext]
        have hstacked := hrest.checkSignals (by rw [hesp']; exact hclear)
        rw [Watch.perform, Task.handlerRet]
        dsimp only
        rw [if_pos hlinkage, if_pos hlinkage, mem_leave]
        exact hstacked
  · cases o with
    | ret =>
      obtain ⟨g, hg, hesp⟩ := ho
      intro f hf
      have hfg : f = g := Option.mem_unique hf hg
      subst hfg
      have hintact := h.intact f (List.mem_of_mem_head? hf)
      obtain ⟨hlinkage, -, hcontext⟩ := sigreturn_context hintact hesp
      rw [hcontext]
      exact ⟨hlinkage, rfl, rfl, rfl⟩
    | run cpu mem => trivial
    | raise i => trivial
    | setHandler i handler => trivial
    | interrupt error irqNum => trivial
    | write k v => trivial

/-- **A delivery is undone by its return**, at any depth.  In every run of a program that begins with
no handler running and whose operations are `WellNested`, each return of a handler goes through the
linkage, and `_syscall_sigreturn` gives back the address, the stack pointer and the registers of the
matching delivery, with exactly those registers changed that the handler has written over. -/
theorem sigreturn_restores (linkage : Word) (t : Task) (ops : List Op)
    (h : Runs.Meets (Watch.step linkage) Watch.WellNested ⟨t, []⟩ ops) :
    Runs.Meets (Watch.step linkage) (Watch.Restores linkage) ⟨t, []⟩ ops :=
  h.imp (I := fun w => Stacked linkage w.task.mem w.frames) (fun _ _ hw ho => (hw.step ho).1)
    (fun _ _ hw ho => (hw.step ho).2) Stacked.nil

/-- A program that is interrupted: an alarm is pending, and it has handlers for faults and alarms. -/
def alarmed : Task where
  cpu :=
    { ebx := 1, ecx := 2, edx := 3, esi := 4, edi := 5, ebp := 0x83FFF80, eax := 6, ds := 0x2B, es := 0x2B,
      fs := 0x2B, eip := 0x8048200, cs := userCs, eflags := 0x246, esp := 0x83FFF00, ss := 0x2B }
  mem := fun _ => 0
  pcb :=
    { signals := sigFlag sigAlarm
      signalHandlers := fun i => if i = sigSegfault then 0x8048500 else if i = sigAlarm then 0x8048600 else 0
      hasParent := true }
  halted := false

/-- A fault in the handler of an alarm.  The handler of the fault changes `eax` of the handler of the
alarm, and in the end the program goes on where it was. -/
theorem sigreturn_restores_nested :
    let linkage : Word := 0x400800
    let w := Watch.step linkage ⟨alarmed, []⟩ (.interrupt 0 (-1))
    let cpu := { w.task.cpu with esp := w.task.cpu.esp - 64 }
    let fault : List Op := [.interrupt 0 (-1), .run cpu w.task.mem, .raise sigSegfault, .interrupt 0 15,
      .write 6 0x804A000, .ret]
    let w' := Runs.run (Watch.step linkage) ⟨alarmed, []⟩ fault
    let ops := fault ++ [.run { w'.task.cpu with esp := w.task.cpu.esp } w'.task.mem, .ret]
    Runs.Meets (Watch.step linkage) (Watch.Restores linkage) ⟨alarmed, []⟩ ops ∧
      w'.task.cpu.eax = 0x804A000 ∧
      (Runs.run (Watch.step linkage) ⟨alarmed, []⟩ ops).task.cpu.esp = 0x83FFF00 := by
  intro linkage w cpu fault w' ops
  refine ⟨sigreturn_restores linkage alarmed ops ?_, by decide +kernel, by decide +kernel⟩
  let before (n : ℕ) : Watch := Runs.run (Watch.step linkage) ⟨alarmed, []⟩ (ops.take n)
  have hfault : ∀ f ∈ (before 3).frames, Clear (before 3).task.cpu.esp f := by decide +kernel
  have hwrite : 0 < (before 4).frames.length := by decide +kernel
  have hret : ∃ f ∈ (before 5).frames.head?, (before 5).task.cpu.esp = f.base := by decide +kernel
  have hret' : ∃ f ∈ (before 7).frames.head?, (before 7).task.cpu.esp = f.base := by decide +kernel
  refine ⟨?_, fun f hf x hx => rfl, trivial, hfault, List.ne_nil_of_length_pos hwrite, hret,
    fun f hf x hx => rfl, hret', trivial⟩
  rintro f ⟨⟩

end run

end Signals
end CoreOS
