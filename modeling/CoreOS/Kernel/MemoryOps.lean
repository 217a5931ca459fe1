import CoreOS.Exec.Execute
import CoreOS.Lib.X86
import Mathlib.Tactic.Abel

/-!
# `memset`, `memcpy` and `memmove`

These three are written in assembly.  `memset` and `memcpy` go byte by byte up to an address that is a
multiple of 4, then word by word with a string instruction, and byte by byte again for the rest
(`blockCode`).  `memmove` copies byte by byte, from the end of the block if the destination is behind
the source.

They do what the plain loops would: `memset` fills the block, wherever it begins (`memset_fills`), and
`memcpy` copies it unless its destination begins inside of it (`memcpy_copies`).  `memmove` copies also
such a block, but then it returns with the direction flag set (`memmove_moves`).
-/

namespace CoreOS
namespace MemoryOps

open StateTransition X86 X86.Cpu Assembly Memory

/-- The labels of a routine, without its name. -/
inductive Label where
  | top
  | aligned
  | bottom
  | done
  | go
  deriving DecidableEq

/-- Assembly code. -/
abbrev Code := List (Line Instr Cond Label)

/-- The code of `memset` and of `memcpy`, which differ in how they handle one byte and in the string
instruction. -/
def blockCode (bytes : List Instr) (op : StringOp) : Code :=
  let head : Code :=
    [.label .top,
      .op (.testl .ecx .ecx),
      .jump .z .done,
      .op (.testlImm 0x3 .edi),
      .jump .z .aligned]
  let middle : Code :=
    [.op (.subl 1 .ecx),
      .jump .always .top,
      .label .aligned,
      .op .movwDsDx,
      .op .movwDxEs,
      .op (.movl .ecx .edx),
      .op (.shrl 2 .ecx),
      .op (.andl 0x3 .edx),
      .op .cld,
      .op (.rep op),
      .label .bottom,
      .op (.testl .edx .edx),
      .jump .z .done]
  let tail : Code := [.op (.subl 1 .edx), .jump .always .bottom, .label .done]
  head ++ (bytes.map .op ++ (middle ++ (bytes.map .op ++ tail)))

/-- `memset`. -/
def memset : Code := blockCode [.movbStore .edi, .addl 1 .edi] (.stos .long)

/-- `memcpy`. -/
def memcpy : Code :=
  blockCode [.movbLoad .esi, .movbStore .edi, .addl 1 .edi, .addl 1 .esi] (.movs .long)

/-- `memmove`. -/
def memmove : Code :=
  [.op .movwDsDx,
    .op .movwDxEs,
    .op .cld,
    .op (.cmp .edi .esi),
    .jump .ae .go,
    .op (.leal ⟨-1, some .esi, some (.ecx, 1)⟩ .esi),
    .op (.leal ⟨-1, some .edi, some (.ecx, 1)⟩ .edi),
    .op .std,
    .label .go,
    .op (.rep (.movs .byte))]

/-- The code of `memset_word` and of `memset_dword`. -/
def unitCode (w : Width) : Code := [.op .movwDsDx, .op .movwDxEs, .op .cld, .op (.rep (.stos w))]

/-- `memset_word`. -/
def memsetWord : Code := unitCode .word

/-- `memset_dword`. -/
def memsetDword : Code := unitCode .long

/-! ## Block by block -/

/-- **What is done of a block of `n` bytes**: `At p` when `p` bytes are handled.  It does not look at
the counters. -/
structure Progress (bytes : List Instr) (op : StringOp) (n : ℕ) (At : ℕ → Cpu → Prop) : Prop where
  congr : ∀ {p s s'}, (∀ r, r ≠ .ecx → r ≠ .edx → s'.reg r = s.reg r) → s'.mem = s.mem →
    At p s → At p s'
  /-- One byte. -/
  byte : ∀ {p s}, p < n → At p s → At (p + 1) (execAll machine bytes s) ∧
    (execAll machine bytes s).reg .ecx = s.reg .ecx ∧
    (execAll machine bytes s).reg .edx = s.reg .edx
  /-- Four bytes. -/
  long : ∀ {p s}, p + 4 ≤ n → s.df = false → At p s → At (p + 4) (s.string op) ∧
    (s.string op).reg .ecx = s.reg .ecx ∧ (s.string op).reg .edx = s.reg .edx ∧
    (s.string op).df = false

/-- The code from the head of the bottom loop on. -/
def bottomCode (bytes : List Instr) : Code :=
  let tail : Code := [.op (.subl 1 .edx), .jump .always .bottom, .label .done]
  .op (.testl .edx .edx) :: .jump .z .done :: (bytes.map .op ++ tail)

/-- The code from the string instruction on. -/
def repCode (bytes : List Instr) (op : StringOp) : Code :=
  .op (.rep op) :: .label .bottom :: bottomCode bytes

/-- The code from the words on. -/
def alignedCode (bytes : List Instr) (op : StringOp) : Code :=
  .op .movwDsDx :: .op .movwDxEs :: .op (.movl .ecx .edx) :: .op (.shrl 2 .ecx) ::
    .op (.andl 0x3 .edx) :: .op .cld :: repCode bytes op

/-- The code from the head of the first loop on. -/
def topCode (bytes : List Instr) (op : StringOp) : Code :=
  let middle : Code := .op (.subl 1 .ecx) :: .jump .always .top :: .label .aligned ::
    alignedCode bytes op
  .op (.testl .ecx .ecx) :: .jump .z .done :: .op (.testlImm 0x3 .edi) :: .jump .z .aligned ::
    (bytes.map .op ++ middle)

section targets

variable (bytes : List Instr) (op : StringOp)

theorem target_top : target .top (blockCode bytes op) = topCode bytes op := by
  simp [blockCode, topCode, alignedCode, repCode, bottomCode, target]

theorem target_aligned : target .aligned (blockCode bytes op) = alignedCode bytes op := by
  simp [blockCode, alignedCode, repCode, bottomCode, target, target_map_op_append]

theorem target_bottom : target .bottom (blockCode bytes op) = bottomCode bytes := by
  simp [blockCode, bottomCode, target, target_map_op_append]

theorem target_done : target .done (blockCode bytes op) = [] := by
  simp [blockCode, target, target_map_op_append]

end targets

/-- A counter is tested for zero. -/
theorem holds_z_testl (s : Cpu) (r : Reg) :
    machine.holds .z (machine.exec (.testl r r) s) = decide ((s.reg r).toNat = 0) := by
  show (s.reg r &&& s.reg r == 0) = _
  rw [BitVec.and_self, Bool.beq_eq_decide_eq]
  exact decide_eq_decide.mpr BitVec.toNat_eq

/-- A counter is counted down. -/
theorem toNat_subl_one {s : Cpu} {r : Reg} (h : 0 < (s.reg r).toNat) :
    ((machine.exec (.subl 1 r) s).reg r).toNat = (s.reg r).toNat - 1 := by
  have hreg : (machine.exec (.subl 1 r) s).reg r = s.reg r - 1 := reg_set_self ..
  have hone : (1 : BitVec 32) ≤ s.reg r := BitVec.le_def.mpr h
  rw [hreg, BitVec.toNat_sub_of_le hone]
  rfl

namespace Progress

variable {bytes : List Instr} {op : StringOp} {n : ℕ} {At : ℕ → Cpu → Prop}
  (h : Progress bytes op n At)
include h

/-- The bytes behind the last word. -/
theorem bottom {p : ℕ} {s : Cpu} (hp : p + (s.reg .edx).toNat = n) (hs : At p s) :
    ∃ s', Reaches (step machine (blockCode bytes op)) (bottomCode bytes, s) ([], s') ∧ At n s' := by
  refine reaches_loop (n := (s.reg .edx).toNat)
    (I := fun k s => ∃ p, p + k = n ∧ At p s ∧ (s.reg .edx).toNat = k) ?_ ⟨p, hp, hs, rfl⟩
  rintro k s ⟨p, hp, hs, hk⟩
  have htest := holds_z_testl s .edx
  have hflags : At p (machine.exec (.testl .edx .edx) s) :=
    h.congr (s := s) (fun _ _ _ => rfl) rfl hs
  by_cases hzero : k = 0
  · rw [hk, decide_eq_true hzero] at htest
    refine Or.inl ⟨machine.exec (.testl .edx .edx) s,
      reaches_op (reaches_jump_of_holds htest ?_), ?_⟩
    · rw [target_done]
      exact Relation.ReflTransGen.refl
    · rwa [← hp, hzero]
  · rw [hk, decide_eq_false hzero] at htest
    obtain ⟨hbyte, -, hedx⟩ := h.byte (by omega) hflags
    have hpos : ((execAll machine bytes (machine.exec (.testl .edx .edx) s)).reg .edx).toNat = k :=
      (congrArg BitVec.toNat hedx).trans hk
    refine Or.inr ⟨k - 1, by omega,
      machine.exec (.subl 1 .edx) (execAll machine bytes (machine.exec (.testl .edx .edx) s)),
      reaches_op (reaches_jump_of_not htest (reaches_ops bytes
        (reaches_op (reaches_jump_of_holds rfl ?_)))), p + 1, by omega, ?_, ?_⟩
    · rw [target_bottom]
      exact Relation.ReflTransGen.refl
    · exact h.congr (fun r _ hr => reg_set_of_ne _ _ _ _ hr) rfl hbyte
    · rw [toNat_subl_one (by omega), hpos]

/-- The words: `ecx` is divided. -/
theorem aligned {p : ℕ} {s : Cpu} (hp : p + (s.reg .ecx).toNat = n) (hs : At p s) :
    ∃ s', Reaches (step machine (blockCode bytes op)) (alignedCode bytes op, s) ([], s') ∧
      At n s' := by
  -- the processor in front of the string instruction
  obtain ⟨t, ht, hcode, hedx, hecx, hdf⟩ : ∃ t, At p t ∧
      (∀ c, Reaches (step machine (blockCode bytes op)) (repCode bytes op, t) c →
        Reaches (step machine (blockCode bytes op)) (alignedCode bytes op, s) c) ∧
      (t.reg .edx).toNat = (s.reg .ecx).toNat % 4 ∧ (t.reg .ecx).toNat = (s.reg .ecx).toNat / 4 ∧
      t.df = false := by
    refine ⟨execAll machine [.movwDsDx, .movwDxEs, .movl .ecx .edx, .shrl 2 .ecx, .andl 0x3 .edx,
      .cld] s, ?_, fun c hc => reaches_ops _ hc, ?_, ?_, rfl⟩
    · refine h.congr (s := s) (fun r hr hr' => ?_) rfl hs
      simp [machine, exec, hr, hr']
    · simpa [machine, exec] using Nat.and_two_pow_sub_one_eq_mod (s.reg .ecx).toNat 2
    · simp [machine, exec, Nat.shiftRight_eq_div_pow]
  -- the string instruction
  have hrep : At (p + 4 * ((s.reg .ecx).toNat / 4)) (machine.exec (.rep op) t) ∧
      ((machine.exec (.rep op) t).reg .edx).toNat = (s.reg .ecx).toNat % 4 := by
    refine (repeat_spec (P := fun k u => At (p + 4 * k) u ∧
      (u.reg .edx).toNat = (s.reg .ecx).toNat % 4 ∧ u.df = false) ?_ ⟨ht, hedx, hdf⟩ hecx).imp_right
        And.left
    rintro k hk u ⟨hu, hu', hdf⟩
    obtain ⟨hlong, -, hkeep, hup⟩ := h.long (by omega) hdf hu
    refine ⟨h.congr (s := u.string op) (fun r hr _ => reg_set_of_ne _ _ _ _ hr) rfl hlong, ?_, hup⟩
    rw [repeatOnce, reg_set_of_ne _ _ _ _ (by decide), hkeep, hu']
  obtain ⟨s', hs', hat⟩ := h.bottom (by omega) hrep.1
  exact ⟨s', hcode _ (reaches_op (reaches_label hs')), hat⟩

/-- **The whole routine.** -/
theorem ends {s : Cpu} (hn : (s.reg .ecx).toNat = n) (hs : At 0 s) :
    ∃ s' ∈ result machine (blockCode bytes op) s, At n s' := by
  obtain ⟨s', hs', hat⟩ : ∃ s', Reaches (step machine (blockCode bytes op))
      (topCode bytes op, s) ([], s') ∧ At n s' := by
    refine reaches_loop (n := n)
      (I := fun k s => ∃ p, p + k = n ∧ At p s ∧ (s.reg .ecx).toNat = k) ?_ ⟨0, by omega, hs, hn⟩
    rintro k s ⟨p, hp, hs, hk⟩
    have htest := holds_z_testl s .ecx
    have hflags : At p (machine.exec (.testl .ecx .ecx) s) :=
      h.congr (s := s) (fun _ _ _ => rfl) rfl hs
    have hflags' : At p (machine.exec (.testlImm 0x3 .edi) (machine.exec (.testl .ecx .ecx) s)) :=
      h.congr (s := s) (fun _ _ _ => rfl) rfl hs
    by_cases hzero : k = 0
    · rw [hk, decide_eq_true hzero] at htest
      refine Or.inl ⟨machine.exec (.testl .ecx .ecx) s,
        reaches_op (reaches_jump_of_holds htest ?_), ?_⟩
      · rw [target_done]
        exact Relation.ReflTransGen.refl
      · rwa [← hp, hzero]
    · rw [hk, decide_eq_false hzero] at htest
      cases hz : machine.holds .z
        (machine.exec (.testlImm 0x3 .edi) (machine.exec (.testl .ecx .ecx) s)) with
      | true =>
        -- the address is a multiple of 4
        obtain ⟨s', hs', hat⟩ := h.aligned (hk.symm ▸ hp) hflags'
        refine Or.inl ⟨s', reaches_op (reaches_jump_of_not htest
          (reaches_op (reaches_jump_of_holds hz ?_))), hat⟩
        rw [target_aligned]
        exact hs'
      | false =>
        obtain ⟨hbyte, hecx, -⟩ := h.byte (by omega) hflags'
        have hpos : ((execAll machine bytes (machine.exec (.testlImm 0x3 .edi)
            (machine.exec (.testl .ecx .ecx) s))).reg .ecx).toNat = k :=
          (congrArg BitVec.toNat hecx).trans hk
        refine Or.inr ⟨k - 1, by omega, machine.exec (.subl 1 .ecx) (execAll machine bytes
          (machine.exec (.testlImm 0x3 .edi) (machine.exec (.testl .ecx .ecx) s))),
          reaches_op (reaches_jump_of_not htest (reaches_op (reaches_jump_of_not hz
            (reaches_ops bytes (reaches_op (reaches_jump_of_holds rfl ?_)))))),
          p + 1, by omega, ?_, ?_⟩
        · rw [target_top]
          exact Relation.ReflTransGen.refl
        · exact h.congr (fun r hr _ => reg_set_of_ne _ _ _ _ hr) rfl hbyte
        · rw [toNat_subl_one (by omega), hpos]
  have hcode : blockCode bytes op = .label .top :: topCode bytes op := by
    simp [blockCode, topCode, alignedCode, repCode, bottomCode]
  refine ⟨s', mem_result ?_, hat⟩
  refine Relation.ReflTransGen.head (b := (topCode bytes op, s)) ?_ hs'
  rw [hcode]
  exact Option.mem_some_self _

end Progress

/-! ## `memset` -/

/-- `c << 24 | c << 16 | c << 8 | c`, after `c &= 0xFF`. -/
def spread (c : BitVec 32) : BitVec 32 :=
  let c := c &&& 0xFF
  c <<< 24 ||| c <<< 16 ||| c <<< 8 ||| c

theorem extractLsb'_spread (c : BitVec 32) {i : ℕ} (hi : i < 4) :
    (spread c).extractLsb' (8 * i) 8 = c.setWidth 8 := by
  have hbyte : ∀ b : BitVec 8, ∀ i < 4, (b.setWidth 32 <<< 24 ||| b.setWidth 32 <<< 16 |||
      b.setWidth 32 <<< 8 ||| b.setWidth 32).extractLsb' (8 * i) 8 = b := by
    decide +kernel
  have hmask : c &&& 0xFF = (c.setWidth 8).setWidth 32 := by
    refine BitVec.eq_of_toNat_eq ?_
    have hlt : c.toNat % 256 < 4294967296 := by omega
    simpa [Nat.mod_eq_of_lt hlt] using Nat.and_two_pow_sub_one_eq_mod c.toNat 8
  rw [spread, hmask]
  exact hbyte _ i hi

/-- A byte behind those that are handled. -/
theorem add_ofNat_add (a : BitVec 32) (p k : ℕ) :
    a + BitVec.ofNat 32 p + BitVec.ofNat 32 k = a + BitVec.ofNat 32 (p + k) := by
  rw [BitVec.ofNat_add, add_assoc]

/-- **`memset` fills.**  It ends with `n` bytes from `a` on that are the lowest byte of `c`, and nothing
else changed, wherever the block begins and also where it reaches beyond the end of the memory. -/
theorem memset_fills (s : Cpu) (a c n : BitVec 32) :
    ∃ s' ∈ result machine memset (((s.set .eax (spread c)).set .edi a).set .ecx n),
      s'.mem = s.mem.put a n.toNat fun _ => c.setWidth 8 := by
  have hn := n.isLt
  have hprogress : Progress [.movbStore .edi, .addl 1 .edi] (.stos .long) n.toNat
      fun p u => u.reg .eax = spread c ∧ u.reg .edi = a + BitVec.ofNat 32 p ∧
        u.mem = s.mem.put a p fun _ => c.setWidth 8 := by
    refine ⟨fun hreg hmem hs => ?_, fun {p u} hp hs => ?_, fun {p u} hp hdf hs => ?_⟩
    · rwa [hreg _ (by decide) (by decide), hreg _ (by decide) (by decide), hmem]
    · obtain ⟨heax, hedi, hmem⟩ := hs
      refine ⟨⟨?_, ?_, ?_⟩, ?_, ?_⟩
      · simpa [machine, exec] using heax
      · simp [machine, exec, hedi, ← add_ofNat_add]
      · have hbyte := put_put (m := s.mem) (a := a) (p := p) (n := 1)
          (f := fun _ => c.setWidth 8) (g := fun _ => u.regByte .eax 0) (by omega) fun i hi => by
            rw [regByte, heax]
            exact extractLsb'_spread c (by omega)
        rw [← hmem, ← hedi] at hbyte
        exact hbyte
      · simp [machine, exec]
      · simp [machine, exec]
    · obtain ⟨heax, hedi, hmem⟩ := hs
      refine ⟨⟨?_, ?_, ?_⟩, ?_, ?_, ?_⟩
      · simpa [string] using heax
      · simp [string, advance_of_up hdf, Width.bytes, hedi, add_ofNat_add]
      · have hlong := put_put (m := s.mem) (a := a) (p := p) (n := 4)
          (f := fun _ => c.setWidth 8) (g := u.regByte .eax) (by omega) fun i hi => by
            rw [regByte, heax]
            exact extractLsb'_spread c hi
        rw [← hmem, ← hedi] at hlong
        exact hlong
      · simp [string]
      · simp [string]
      · exact hdf
  obtain ⟨s', hs', -, -, hmem⟩ := hprogress.ends (s := ((s.set .eax (spread c)).set .edi a).set .ecx n)
    (by simp) ⟨by simp, by simp, put_zero.symm⟩
  exact ⟨s', hs', hmem⟩

/-- **`memset_word` and `memset_dword`** fill `n` units with the lowest bytes of `c`, unless these are
more than the memory has. -/
theorem unitCode_fills (w : Width) (s : Cpu) (a c : BitVec 32) {n : BitVec 32}
    (hn : w.bytes * n.toNat ≤ 2 ^ 32) :
    ∃ s' ∈ result machine (unitCode w) (((s.set .eax c).set .edi a).set .ecx n),
      s'.mem = s.mem.put a (w.bytes * n.toNat) fun i => c.extractLsb' (8 * (i % w.bytes)) 8 := by
  have hspec := repeat_spec (o := .stos w) (n := n.toNat)
    (s := execAll machine [.movwDsDx, .movwDxEs, .cld] (((s.set .eax c).set .edi a).set .ecx n))
    (P := fun k u => u.reg .eax = c ∧ u.reg .edi = a + BitVec.ofNat 32 (w.bytes * k) ∧
      u.mem = (s.mem.put a (w.bytes * k) fun i => c.extractLsb' (8 * (i % w.bytes)) 8) ∧
        u.df = false) ?_ ⟨by simp [machine, exec], by simp [machine, exec], put_zero.symm, rfl⟩
          (by simp [machine, exec])
  · exact ⟨_, mem_result (reaches_op (reaches_op (reaches_op (reaches_op
      Relation.ReflTransGen.refl)))), hspec.2.2.1⟩
  · rintro k hk u ⟨heax, hedi, hmem, hdf⟩
    have hle : w.bytes * (k + 1) ≤ w.bytes * n.toNat := Nat.mul_le_mul_left _ hk
    rw [Nat.mul_succ] at hle ⊢
    refine ⟨by simpa [repeatOnce, string] using heax, ?_, ?_, hdf⟩
    · simp [repeatOnce, string, advance_of_up hdf, hedi, add_ofNat_add]
    · have hunit := put_put (m := s.mem) (a := a) (p := w.bytes * k) (n := w.bytes)
        (f := fun i => c.extractLsb' (8 * (i % w.bytes)) 8) (g := u.regByte .eax) (by omega)
        fun i hi => by rw [regByte, heax, Nat.mul_add_mod, Nat.mod_eq_of_lt hi]
      rw [← hmem, ← hedi] at hunit
      exact hunit

/-! ## `memcpy` -/

/-- A byte of the source that is not behind the bytes that are handled is not yet overwritten. -/
theorem le_toNat_source {a b : BitVec 32} {n p q : ℕ} (hout : (a - b).toNat = 0 ∨ n ≤ (a - b).toNat)
    (hp : p ≤ q) (hq : q < n) (hn : n ≤ 2 ^ 32) : p ≤ (b + BitVec.ofNat 32 q - a).toNat := by
  have hdist : b + BitVec.ofNat 32 q - a = BitVec.ofNat 32 q - (a - b) := by abel
  have hlt := (a - b).isLt
  rw [hdist, BitVec.toNat_sub, BitVec.toNat_ofNat, Nat.mod_eq_of_lt (show q < 2 ^ 32 by omega)]
  omega

/-- **`memcpy` copies** a block if its destination does not begin inside of it, behind its first byte. -/
theorem memcpy_copies (s : Cpu) (a b n : BitVec 32)
    (hout : (a - b).toNat = 0 ∨ n.toNat ≤ (a - b).toNat) :
    ∃ s' ∈ result machine memcpy (((s.set .esi b).set .edi a).set .ecx n),
      s'.mem = Exec.memcpy s.mem a (fun i => s.mem (b + BitVec.ofNat 32 i)) n.toNat := by
  have hn := n.isLt
  have hread : ∀ {u : Cpu} {p q : ℕ},
      u.mem = (s.mem.put a p fun i => s.mem (b + BitVec.ofNat 32 i)) → p ≤ q → q < n.toNat →
        u.mem (b + BitVec.ofNat 32 q) = s.mem (b + BitVec.ofNat 32 q) := by
    intro u p q hmem hp hq
    rw [hmem]
    exact put_of_le (le_toNat_source hout hp hq hn.le)
  have hprogress : Progress [.movbLoad .esi, .movbStore .edi, .addl 1 .edi, .addl 1 .esi]
      (.movs .long) n.toNat fun p u => u.reg .esi = b + BitVec.ofNat 32 p ∧
        u.reg .edi = a + BitVec.ofNat 32 p ∧
        u.mem = s.mem.put a p fun i => s.mem (b + BitVec.ofNat 32 i) := by
    refine ⟨fun hreg hmem hs => ?_, fun {p u} hp hs => ?_, fun {p u} hp hdf hs => ?_⟩
    · rwa [hreg _ (by decide) (by decide), hreg _ (by decide) (by decide), hmem]
    · obtain ⟨hesi, hedi, hmem⟩ := hs
      refine ⟨⟨?_, ?_, ?_⟩, ?_, ?_⟩
      · simp only [execAll_cons, execAll_nil, machine_exec]
        simp [exec, hesi, ← add_ofNat_add]
      · simp only [execAll_cons, execAll_nil, machine_exec]
        simp [exec, hedi, ← add_ofNat_add]
      · have hbyte := put_put (m := s.mem) (a := a) (p := p) (n := 1)
          (f := fun i => s.mem (b + BitVec.ofNat 32 i))
          (g := fun _ => (u.exec (.movbLoad .esi)).regByte .eax 0) (by omega) fun i hi => by
            obtain rfl : i = 0 := by omega
            rw [Nat.add_zero, ← hread hmem le_rfl hp, ← hesi]
            exact regByte_movbLoad u .esi
        rw [← hmem, ← hedi] at hbyte
        exact hbyte
      · simp only [execAll_cons, execAll_nil, machine_exec]
        simp [exec]
      · simp only [execAll_cons, execAll_nil, machine_exec]
        simp [exec]
    · obtain ⟨hesi, hedi, hmem⟩ := hs
      refine ⟨⟨?_, ?_, ?_⟩, ?_, ?_, ?_⟩
      · simp [string, advance_of_up hdf, Width.bytes, hesi, add_ofNat_add]
      · simp [string, advance_of_up hdf, Width.bytes, hedi, add_ofNat_add]
      · have hlong := put_put (m := s.mem) (a := a) (p := p) (n := 4)
          (f := fun i => s.mem (b + BitVec.ofNat 32 i))
          (g := fun i => u.mem (u.reg .esi + BitVec.ofNat 32 i)) (by omega) fun i hi => by
            rw [hesi, add_ofNat_add]
            exact hread hmem (Nat.le_add_right p i) (by omega)
        rw [← hmem, ← hedi] at hlong
        exact hlong
      · simp [string]
      · simp [string]
      · exact hdf
  obtain ⟨s', hs', -, -, hmem⟩ := hprogress.ends (s := ((s.set .esi b).set .edi a).set .ecx n)
    (by simp) ⟨by simp, by simp, put_zero.symm⟩
  exact ⟨s', hs', hmem⟩

/-- A memory in which each byte is the lowest byte of its address. -/
def numbered : Cpu := ⟨fun _ => 0, fun _ => 0, false, false, false, false, fun x => x.setWidth 8, []⟩

/-- Ten bytes from 1 on are copied to 256: a byte, two words and a byte. -/
theorem memcpy_copies_ten :
    ∃ s' ∈ result machine memcpy (((numbered.set .esi 1).set .edi 256).set .ecx 10),
      s'.mem 256 = 1 ∧ s'.mem 265 = 10 ∧ s'.mem 266 = 10 := by
  obtain ⟨s', hs', hmem⟩ := memcpy_copies numbered 256 1 10 (Or.inr (by decide))
  refine ⟨s', hs', ?_⟩
  rw [hmem]
  decide

/-! ## `memmove` -/

theorem ofNat_succ_sub_one (a : BitVec 32) (j : ℕ) :
    a + BitVec.ofNat 32 (j + 1) - 1 = a + BitVec.ofNat 32 j := by
  rw [BitVec.ofNat_add, ← add_assoc]
  exact add_sub_cancel_right _ _

theorem target_go : target .go memmove = [.op (.rep (.movs .byte))] := rfl

section memmove

variable {s t : Cpu} {a b n : BitVec 32}

/-- Copying from the beginning, where the destination is before the source. -/
theorem forward (hb : b.toNat + n.toNat ≤ 2 ^ 32) (hle : a ≤ b) (hesi : t.reg .esi = b)
    (hedi : t.reg .edi = a) (hecx : t.reg .ecx = n) (hdf : t.df = false) :
    (t.exec (.rep (.movs .byte))).mem =
        Exec.memcpy t.mem a (fun i => t.mem (b + BitVec.ofNat 32 i)) n.toNat ∧
      (t.exec (.rep (.movs .byte))).df = false := by
  have hn := n.isLt
  have hout : (a - b).toNat = 0 ∨ n.toNat ≤ (a - b).toNat := by
    have hnat := BitVec.le_def.mp hle
    rw [BitVec.toNat_sub]
    omega
  refine (repeat_spec (n := n.toNat) (P := fun k u => u.reg .esi = b + BitVec.ofNat 32 k ∧
    u.reg .edi = a + BitVec.ofNat 32 k ∧
      u.mem = t.mem.put a k (fun i => t.mem (b + BitVec.ofNat 32 i)) ∧ u.df = false) ?_
        ⟨by simpa using hesi, by simpa using hedi, put_zero.symm, hdf⟩ (by rw [hecx])).2.2
  rintro k hk u ⟨hesi, hedi, hmem, hdf⟩
  refine ⟨?_, ?_, ?_, hdf⟩
  · simp [repeatOnce, string, advance_of_up hdf, Width.bytes, hesi, ← add_ofNat_add]
  · simp [repeatOnce, string, advance_of_up hdf, Width.bytes, hedi, ← add_ofNat_add]
  · have hbyte := put_put (m := t.mem) (a := a) (p := k) (n := 1)
      (f := fun i => t.mem (b + BitVec.ofNat 32 i))
      (g := fun i => u.mem (u.reg .esi + BitVec.ofNat 32 i)) (by omega) fun i hi => by
        obtain rfl : i = 0 := by omega
        rw [hesi, add_ofNat_add, hmem]
        exact put_of_le (le_toNat_source hout le_rfl hk hn.le)
    rw [← hmem, ← hedi] at hbyte
    exact hbyte

/-- Copying from the end, where the destination is behind the source. -/
theorem backward (ha : a.toNat + n.toNat ≤ 2 ^ 32) (hlt : b < a)
    (hesi : t.reg .esi = -1 + b + n) (hedi : t.reg .edi = -1 + a + n) (hecx : t.reg .ecx = n)
    (hdf : t.df = true) :
    (t.exec (.rep (.movs .byte))).mem =
        Exec.memcpy t.mem a (fun i => t.mem (b + BitVec.ofNat 32 i)) n.toNat ∧
      (t.exec (.rep (.movs .byte))).df = true := by
  have hn := n.isLt
  have hself : BitVec.ofNat 32 n.toNat = n := (BitVec.ofNat_toNat 32 n).trans (BitVec.setWidth_eq n)
  have hspec := repeat_spec (o := .movs .byte) (n := n.toNat) (s := t)
    (P := fun k u => u.reg .esi = b + BitVec.ofNat 32 (n.toNat - k) - 1 ∧
      u.reg .edi = a + BitVec.ofNat 32 (n.toNat - k) - 1 ∧
      u.mem = t.mem.put (a + BitVec.ofNat 32 (n.toNat - k)) k
        (fun i => t.mem (b + BitVec.ofNat 32 (n.toNat - k + i))) ∧ u.df = true) ?_ ?_ (by rw [hecx])
  · obtain ⟨-, -, hmem, hdf'⟩ := hspec
    refine ⟨hmem.trans ?_, hdf'⟩
    rw [Nat.sub_self, BitVec.add_zero]
    simp only [Nat.zero_add]
    rfl
  · rintro k hk u ⟨hesi, hedi, hmem, hdf⟩
    obtain ⟨j, hj⟩ : ∃ j, n.toNat - k = j + 1 := ⟨n.toNat - k - 1, by omega⟩
    have hnext : n.toNat - (k + 1) = j := by omega
    rw [hj, ofNat_succ_sub_one] at hesi hedi
    rw [hnext]
    rw [hj] at hmem
    refine ⟨?_, ?_, ?_, hdf⟩
    · simp [repeatOnce, string, advance_of_down hdf, Width.bytes, hesi]
    · simp [repeatOnce, string, advance_of_down hdf, Width.bytes, hedi]
    · have hunread : k ≤ (b + BitVec.ofNat 32 j - (a + BitVec.ofNat 32 (j + 1))).toNat := by
        have hnat := BitVec.lt_def.mp hlt
        have hdist : b + BitVec.ofNat 32 j - (a + BitVec.ofNat 32 (j + 1)) = ~~~(a - b) := by
          have hsucc : BitVec.ofNat 32 (j + 1) = BitVec.ofNat 32 j + 1#32 := BitVec.ofNat_add j 1
          rw [hsucc, BitVec.not_eq_neg_add]
          abel
        rw [hdist, BitVec.toNat_not, BitVec.toNat_sub]
        omega
      have hbyte := put_put_before (m := t.mem) (a := a + BitVec.ofNat 32 j) (p := k) (n := 1)
        (f := fun i => t.mem (b + BitVec.ofNat 32 (j + i)))
        (g := fun i => u.mem (u.reg .esi + BitVec.ofNat 32 i)) fun i hi => by
          obtain rfl : i = 0 := by omega
          rw [hesi, BitVec.add_zero, Nat.add_zero, hmem]
          exact put_of_le hunread
      simp only [← Nat.add_assoc, add_ofNat_add] at hbyte
      rw [← hmem, ← hedi, Nat.add_comm 1 k] at hbyte
      exact hbyte.trans (by rw [hedi])
  · refine ⟨?_, ?_, put_zero.symm, hdf⟩
    · rw [hesi, Nat.sub_zero, hself]
      abel
    · rw [hedi, Nat.sub_zero, hself]
      abel

end memmove

/-- **`memmove` moves** every block that does not reach beyond the end of the memory, however source and
destination overlap.  It ends with the direction flag set if the destination is behind the source. -/
theorem memmove_moves (s : Cpu) {a b n : BitVec 32} (ha : a.toNat + n.toNat ≤ 2 ^ 32)
    (hb : b.toNat + n.toNat ≤ 2 ^ 32) :
    ∃ s' ∈ result machine memmove (((s.set .esi b).set .edi a).set .ecx n),
      s'.mem = Exec.memcpy s.mem a (fun i => s.mem (b + BitVec.ofNat 32 i)) n.toNat ∧
        s'.df = decide (b < a) := by
  -- the processor at the jump
  obtain ⟨t, hcode, hmem, hesi, hedi, hecx, hdf, hae⟩ : ∃ t,
      (∀ c, Reaches (step machine memmove) (.jump .ae .go :: [.op (.leal ⟨-1, some .esi, some (.ecx, 1)⟩ .esi),
          .op (.leal ⟨-1, some .edi, some (.ecx, 1)⟩ .edi), .op .std, .label .go, .op (.rep (.movs .byte))], t) c →
        Reaches (step machine memmove) (memmove, ((s.set .esi b).set .edi a).set .ecx n) c) ∧
      t.mem = s.mem ∧ t.reg .esi = b ∧ t.reg .edi = a ∧ t.reg .ecx = n ∧ t.df = false ∧
      machine.holds .ae t = !decide (b < a) := by
    refine ⟨execAll machine [.movwDsDx, .movwDxEs, .cld, .cmp .edi .esi]
      (((s.set .esi b).set .edi a).set .ecx n), fun c hc => reaches_ops _ hc, rfl, ?_, ?_, ?_, rfl, ?_⟩
    all_goals simp [machine, exec, X86.Cpu.holds, below]
  rw [← hmem]
  by_cases hlt : b < a
  · rw [decide_eq_true hlt] at hae ⊢
    obtain ⟨hcopy, hflag⟩ := backward (t := execAll machine [.leal ⟨-1, some .esi, some (.ecx, 1)⟩ .esi,
      .leal ⟨-1, some .edi, some (.ecx, 1)⟩ .edi, .std] t) (b := b) ha hlt (by simp [machine, exec, address, hesi, hecx])
        (by simp [machine, exec, address, hedi, hecx]) (by simp [machine, exec, hecx]) rfl
    refine ⟨_, mem_result (hcode _ (reaches_jump_of_not hae (reaches_op (reaches_op (reaches_op
      (reaches_label (reaches_op Relation.ReflTransGen.refl))))))), hcopy, hflag⟩
  · rw [decide_eq_false hlt] at hae ⊢
    obtain ⟨hcopy, hflag⟩ := forward hb (BitVec.not_lt.mp hlt) hesi hedi hecx hdf
    refine ⟨_, mem_result (hcode _ (reaches_jump_of_holds hae ?_)), hcopy, hflag⟩
    rw [target_go]
    exact reaches_op Relation.ReflTransGen.refl

/-- Ten bytes are moved by one byte up, over themselves. -/
theorem memmove_moves_ten :
    ∃ s' ∈ result machine memmove (((numbered.set .esi 0).set .edi 1).set .ecx 10),
      s'.mem 0 = 0 ∧ s'.mem 1 = 0 ∧ s'.mem 10 = 9 ∧ s'.df = true := by
  obtain ⟨s', hs', hmem, hdf⟩ := memmove_moves numbered (a := 1) (b := 0) (n := 10) (by decide)
    (by decide)
  refine ⟨s', hs', ?_⟩
  rw [hmem, hdf]
  decide

end MemoryOps
end CoreOS
