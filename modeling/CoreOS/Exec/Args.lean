import CoreOS.Exec.Format

/-!
# From the command line to `getargs`

What follows the first word of a command is for the new process.  `_syscall_execute` copies it to its
stack and leaves a pointer in the PCB, and `syscall_getargs` copies it from there to the process.

## Where a text is lost

The first copy is as long as `arg_len` says, and `arg_len` is a `uint8_t`.  So of a text of 256 bytes or
more only the first `length % 256` are copied, with a `NUL` behind them (`cmdArgs_of_starts`), and
`syscall_getargs` cannot know that there was more.  It compares the size of the buffer with the length of
what is there: a buffer that has room for the text gets the beginning of it, and is told that this is all
(`storeBytes_take_ne`).  Only a buffer that has no room for what is left of the text is refused, as it
should be.  This is the condition of `args_arrive_iff`: the text is shorter than 256 bytes, or the buffer
is refused in either case.

## What is taken from elsewhere

`getargs` is called by the new process, and that may be long after the start.  The text is on the stack of
the process that called `execute`, which waits for the new one to end.  `args_arrive_iff` is about those
states in which `cmd_args` still points to what was copied.  The stack has an end, though, and a first
word of several thousand bytes can reach it before the text does; this is a matter of `KernelStack`, and
such a state is not one of those.
-/

namespace CoreOS
namespace Exec

open FileSys Signals

/-- `syscall_getargs`.  There is nothing to get for a process that was started without a text, and nothing
is stored where the buffer has no room for the `NUL`. -/
def State.syscallGetargs (s : State) (buf nbytes : Word) : ℤ × State :=
  if buf = 0 then (-1, s)
  else
    match s.cmdArgs s.sys.cur with
    | none => (-1, s)
    | some a =>
      if nbytes < strlen a.bytes + 1 then (-1, s)
      else (0, { s with sys := s.sys.storeBytes buf (a.bytes ++ [0]) })

/-- A command line: a word of printable characters, spaces, and a text that does not begin with one
more space. -/
structure CommandLine (command : Str) (word : List (BitVec 8)) (spaces : ℕ)
    (text : List (BitVec 8)) : Prop where
  bytes_eq : command.bytes = word ++ (List.replicate spaces 0x20 ++ text)
  word_char : ∀ c ∈ word, 0x21 ≤ c.toNat ∧ c.toNat ≤ 0x7F
  spaces_pos : text ≠ [] → 0 < spaces
  text_head : text.head? ≠ some 0x20

/-- **What `getargs` is for**: the text and a `NUL` if there is room for them, and otherwise, or when
there is no text, -1. -/
structure ArgsArrive (s : State) (text : List (BitVec 8)) (buf nbytes : Word) : Prop where
  room : text ≠ [] → text.length + 1 ≤ nbytes.toNat → s.syscallGetargs buf nbytes =
    (0, { s with sys := s.sys.storeBytes buf (text ++ [0]) })
  no_room : text ≠ [] → nbytes.toNat < text.length + 1 → s.syscallGetargs buf nbytes = (-1, s)
  no_text : text = [] → s.syscallGetargs buf nbytes = (-1, s)

/-! ## The command line -/

section line

variable {command : Str} {word text : List (BitVec 8)} {spaces : ℕ}

theorem isWordChar_of_range {c : BitVec 8} (h : 0x21 ≤ c.toNat ∧ c.toNat ≤ 0x7F) :
    isWordChar c = true := by
  rw [isWordChar, decide_eq_true_eq, BitVec.toInt_eq_toNat_of_lt (by omega)]
  omega

theorem CommandLine.firstWord_eq (h : CommandLine command word spaces text) :
    firstWord command = word := by
  have hrest : (List.replicate spaces 0x20 ++ text).takeWhile isWordChar = [] := by
    cases spaces with
    | zero =>
      have hnil : text = [] := by
        by_contra hne
        exact absurd (h.spaces_pos hne) (Nat.lt_irrefl 0)
      rw [hnil]
      rfl
    | succ n =>
      rw [List.replicate_succ, List.cons_append, List.takeWhile_cons_of_neg (by decide)]
  rw [firstWord, h.bytes_eq,
    List.takeWhile_append_of_pos fun c hc => isWordChar_of_range (h.word_char c hc), hrest,
    List.append_nil]

theorem CommandLine.argText_eq (h : CommandLine command word spaces text) :
    argText command = text := by
  rw [argText, h.firstWord_eq, h.bytes_eq, List.drop_left,
    List.dropWhile_append_of_pos fun c hc => by simpa using List.eq_of_mem_replicate hc]
  cases text with
  | nil => rfl
  | cons c text =>
    have hne : c ≠ 0x20 := fun hc => h.text_head (by rw [hc]; rfl)
    rw [List.dropWhile_cons_of_neg (by simpa using hne)]

theorem CommandLine.text_ne_nul (h : CommandLine command word spaces text) {c : BitVec 8}
    (hc : c ∈ text) : c ≠ 0 := by
  refine command.ne_nul c ?_
  rw [h.bytes_eq]
  exact List.mem_append_right _ (List.mem_append_right _ hc)

end line

/-! ## The copy in the PCB -/

/-- The checks leave the copy of the arguments alone: what they read of the file goes to other variables
of the frame. -/
theorem checkFormat_copiedArgs (m : Machine) (fs : Image) :
    (m.checkFormat fs).2.frame.copiedArgs = m.frame.copiedArgs := by
  have hopen : (m.fsOpen fs).2.frame.copiedArgs = m.frame.copiedArgs := rfl
  have hread : ((m.fsOpen fs).2.fsFileRead fs).2.frame.copiedArgs = m.frame.copiedArgs := rfl
  unfold Machine.checkFormat
  dsimp only
  split
  · exact hopen
  · split
    · exact hread
    · split <;> exact hread

theorem toNat_argLen (command : Str) :
    (argLen command).toNat = (argText command).length % 256 := by
  rw [argLen, strlen, BitVec.toNat_setWidth, BitVec.toNat_ofNat]
  omega

/-- The string `cmd_args` points to, in a new process: the text, cut off at its length in a `uint8_t`.
Without a text the pointer is `NULL`. -/
theorem cmdArgs_of_starts {s s' : State} {fs : Image} {frame : Frame} {command : Str}
    {termInd : BitVec 8} {entry : Word} (hne : ∀ c ∈ argText command, c ≠ 0)
    (h : s.syscallExecute fs frame command termInd = .starts entry s') :
    (s'.cmdArgs s'.sys.cur).map Str.bytes =
      if argText command = [] then none
      else some ((argText command).take ((argText command).length % 256)) := by
  rcases syscallExecute_cases s fs frame command termInd with
    ⟨-, hexec⟩ | ⟨pid, dent, -, -, -, hexec⟩
  · exact nomatch hexec.symm.trans h
  rw [hexec] at h
  cases hterm : termArg termInd with
  | none => simp [hterm] at h
  | some t =>
    have hkernel := checkFormat_copiedArgs ((Machine.mk s frame).parse command) fs
    simp only [hterm, Exit.starts.injEq] at h
    rw [← h.2]
    set m := (((Machine.mk s frame).parse command).checkFormat fs).2
    have hself : (m.start fs command
        (fs.readData dent.inodeNum 0 (BitVec.ofNat 32 bufSize)).ret pid t).cmdArgs pid =
        m.frame.cmdArgs command := Function.update_self ..
    show ((m.start fs command _ pid t).cmdArgs pid).map Str.bytes = _
    rw [hself, Frame.cmdArgs, hkernel]
    by_cases hnil : argText command = []
    · rw [if_pos hnil, if_pos hnil]
      rfl
    · have hcopy := isString_copyString hne frame.copiedArgs
        (n := (argLen command).toNat) (by rw [toNat_argLen]; exact Nat.mod_le _ _)
      have hparse : ((Machine.mk s frame).parse command).frame.copiedArgs =
          copyString frame.copiedArgs (argText command) (argLen command).toNat := if_neg hnil
      rw [if_neg hnil, if_neg hnil, hparse]
      show some (textFrom _ _ 0) = _
      rw [hcopy.textFrom_eq _ (Nat.zero_le _), List.drop_zero, List.take_take, toNat_argLen,
        Nat.min_eq_right (Nat.le_succ _)]

/-! ## What the process gets -/

/-- `syscall_getargs`, by the length of the string it finds. -/
theorem syscallGetargs_eq {s : State} {a : Str} (ha : s.cmdArgs s.sys.cur = some a) {buf : Word}
    (hbuf : buf ≠ 0) (hlen : a.bytes.length < 256) (nbytes : Word) :
    s.syscallGetargs buf nbytes =
      if nbytes.toNat < a.bytes.length + 1 then (-1, s)
      else (0, { s with sys := s.sys.storeBytes buf (a.bytes ++ [0]) }) := by
  have hiff : nbytes < strlen a.bytes + 1 ↔ nbytes.toNat < a.bytes.length + 1 := by
    rw [BitVec.lt_def, strlen, BitVec.toNat_add, BitVec.toNat_ofNat]
    have hone : (1 : BitVec 32).toNat = 1 := rfl
    rw [hone]
    omega
  rw [State.syscallGetargs, if_neg hbuf, ha]
  exact if_congr hiff rfl rfl

/-- A text that has been cut off is told from the whole one by the byte after the cut. -/
theorem storeBytes_take_ne {s : State} {text : List (BitVec 8)} (hne : ∀ c ∈ text, c ≠ 0) {n : ℕ}
    (hn : n < text.length) (hsmall : n < 256) (buf : Word) :
    s.sys.storeBytes buf (text.take n ++ [0]) ≠ s.sys.storeBytes buf (text ++ [0]) := by
  intro heq
  have hmem := congrFun (congrFun (congrArg Sys.State.mem heq) s.sys.cur) (buf + BitVec.ofNat 32 n)
  have hpos : (buf + BitVec.ofNat 32 n - buf).toNat = n := by
    rw [BitVec.add_comm, BitVec.add_sub_cancel, BitVec.toNat_ofNat, Nat.mod_eq_of_lt (by omega)]
  simp only [Sys.State.storeBytes, Function.update_self, hpos] at hmem
  rw [List.getD_append_right _ _ _ _ (by simp), List.length_take, Nat.min_eq_left hn.le, Nat.sub_self,
    List.getD_append _ _ _ _ hn, List.getD_eq_getElem _ _ hn] at hmem
  exact hne _ (List.getElem_mem hn) hmem.symm

/-- What arrives is decided by the string `cmd_args` points to.  A text that is cut off arrives nowhere: it
is either stored and is not the whole text, or refused where the whole text has room.  Where it is
refused and the whole text has no room either, all is as it should be. -/
theorem argsArrive_iff_of_cmdArgs {t : State} {text : List (BitVec 8)} (hne : ∀ c ∈ text, c ≠ 0)
    (hargs : (t.cmdArgs t.sys.cur).map Str.bytes =
      if text = [] then none else some (text.take (text.length % 256)))
    {buf : Word} (hbuf : buf ≠ 0) (nbytes : Word) :
    ArgsArrive t text buf nbytes ↔ text.length < 256 ∨ nbytes.toNat ≤ text.length % 256 := by
  by_cases hnil : text = []
  · rw [if_pos hnil, Option.map_eq_none_iff] at hargs
    refine iff_of_true ⟨fun h => absurd hnil h, fun h => absurd hnil h, fun _ => ?_⟩
      (Or.inl (by rw [hnil]; decide))
    rw [State.syscallGetargs, if_neg hbuf, hargs]
  rw [if_neg hnil] at hargs
  obtain ⟨a, ha, hbytes⟩ := Option.map_eq_some_iff.mp hargs
  have hmod : text.length % 256 < 256 := Nat.mod_lt _ (by decide)
  have hlen : a.bytes.length = text.length % 256 := by
    rw [hbytes, List.length_take, Nat.min_eq_left (Nat.mod_le _ _)]
  have hget := syscallGetargs_eq ha hbuf (by omega) nbytes
  rw [hlen] at hget
  by_cases hshort : text.length < 256
  · have htext : a.bytes = text := by
      rw [hbytes, Nat.mod_eq_of_lt hshort, List.take_length]
    rw [Nat.mod_eq_of_lt hshort, htext] at hget
    refine iff_of_true ⟨fun _ h => ?_, fun _ h => ?_, fun h => absurd h hnil⟩ (Or.inl hshort)
    · rw [hget, if_neg (by omega)]
    · rw [hget, if_pos h]
  · have hcut : text.length % 256 < text.length := by omega
    constructor
    · intro h
      right
      by_contra hroom
      rw [if_neg (by omega)] at hget
      by_cases henough : text.length + 1 ≤ nbytes.toNat
      · -- the whole text is asked for, and the cut one is stored
        have hstore := (h.room hnil henough).symm.trans hget
        have hsys := congrArg (fun r : ℤ × State => r.2.sys) hstore
        rw [hbytes] at hsys
        exact storeBytes_take_ne hne hcut hmod buf hsys.symm
      · have hret := (h.no_room hnil (by omega)).symm.trans hget
        exact absurd (show (-1 : ℤ) = 0 from congrArg Prod.fst hret) (by decide)
    · rintro (h | h)
      · exact absurd h hshort
      · rw [if_pos (by omega)] at hget
        exact ⟨fun _ h' => by omega, fun _ _ => hget, fun h' => absurd h' hnil⟩

section started

variable {s s' t : State} {fs : Image} {frame : Frame} {command : Str} {word text : List (BitVec 8)}
  {spaces : ℕ} {entry : Word}

/-- The string in the PCB of a program started with a command line. -/
theorem CommandLine.cmdArgs_eq (hline : CommandLine command word spaces text)
    (hstart : s.syscallExecute fs frame command (-1) = .starts entry s')
    (hchild : t.cmdArgs t.sys.cur = s'.cmdArgs s'.sys.cur) :
    (t.cmdArgs t.sys.cur).map Str.bytes =
      if text = [] then none else some (text.take (text.length % 256)) := by
  have hargs := cmdArgs_of_starts (by rw [hline.argText_eq]; exact fun c => hline.text_ne_nul) hstart
  rwa [hline.argText_eq, ← hchild] at hargs

/-- **When the arguments arrive.**  A program has been started with a command line, and calls `getargs`
at any time while its `cmd_args` is what it was at the start. -/
theorem args_arrive_iff (hline : CommandLine command word spaces text)
    (hstart : s.syscallExecute fs frame command (-1) = .starts entry s')
    (hchild : t.cmdArgs t.sys.cur = s'.cmdArgs s'.sys.cur) {buf : Word} (hbuf : buf ≠ 0)
    (nbytes : Word) :
    ArgsArrive t text buf nbytes ↔ text.length < 256 ∨ nbytes.toNat ≤ text.length % 256 :=
  argsArrive_iff_of_cmdArgs (fun _ => hline.text_ne_nul) (hline.cmdArgs_eq hstart hchild) hbuf nbytes

end started

/-- The command `a  x`. -/
def commandAX : Str := ⟨[0x61, 0x20, 0x20, 0x78], by decide⟩

theorem commandLine_AX : CommandLine commandAX [0x61] 2 [0x78] where
  bytes_eq := rfl
  word_char := by decide
  spaces_pos _ := by decide
  text_head := by decide

/-- A text of one byte arrives in a buffer of two, where it has room for its `NUL`. -/
theorem args_arrive_AX : ∃ s', idle.syscallExecute headerOnly staleFrame commandAX (-1) =
      .starts 0x08048000 s' ∧ ArgsArrive s' [0x78] 0x8100000 2 := by
  have hentry : (idle.syscallExecute headerOnly staleFrame commandAX (-1)).entry =
      some 0x08048000 := by decide +kernel
  have hterm : termArg (-1) ≠ none := by decide
  obtain ⟨s', hs'⟩ := starts_of_entry idle headerOnly staleFrame commandAX hterm hentry
  exact ⟨s', hs', (args_arrive_iff commandLine_AX hs' rfl (by decide) 2).mpr (Or.inl (by decide))⟩

/-- The command `a ` followed by 256 times `x`. -/
def commandLong : Str where
  bytes := [0x61] ++ (List.replicate 1 0x20 ++ List.replicate 256 0x78)
  ne_nul c hc := by
    rw [List.mem_append, List.mem_append, List.mem_singleton, List.mem_replicate,
      List.mem_replicate] at hc
    rcases hc with rfl | ⟨-, rfl⟩ | ⟨-, rfl⟩ <;> decide

theorem commandLine_long : CommandLine commandLong [0x61] 1 (List.replicate 256 0x78) where
  bytes_eq := rfl
  word_char := by decide
  spaces_pos _ := by decide
  text_head := by decide

/-- **The failing command line.**  Of a text of 256 bytes nothing arrives. -/
theorem not_args_arrive : ¬ ∀ (s s' : State) (fs : Image) (frame : Frame) (command : Str)
    (word text : List (BitVec 8)) (spaces : ℕ) (entry buf nbytes : Word),
    CommandLine command word spaces text →
    s.syscallExecute fs frame command (-1) = .starts entry s' → buf ≠ 0 →
      ArgsArrive s' text buf nbytes := by
  intro h
  have hentry : (idle.syscallExecute headerOnly staleFrame commandLong (-1)).entry =
      some 0x08048000 := by decide +kernel
  have hterm : termArg (-1) ≠ none := by decide
  obtain ⟨s', hs'⟩ := starts_of_entry idle headerOnly staleFrame commandLong hterm hentry
  have harrive := h idle s' headerOnly staleFrame commandLong _ _ _ _ 0x8100000 257 commandLine_long
    hs' (by decide)
  rw [argsArrive_iff_of_cmdArgs (fun _ => commandLine_long.text_ne_nul)
    (commandLine_long.cmdArgs_eq hs' rfl) (by decide), List.length_replicate] at harrive
  exact absurd harrive (by decide)

end Exec
end CoreOS
