import CoreOS.User.Process

/-!
# `cat`

`ece391cat.c`, from the point where it has its argument: it opens the file, and then reads at most 1024
bytes at a time and writes them to the terminal, until a read gives nothing.

`prints_file` is about the program in a running system.  Whatever else goes on between its calls, what
it has written is at every moment the beginning of the file; when it ends, it ends with status 0 and
has written the file, no more and no less; it never waits; and it makes two calls for every 1024 bytes.
-/

namespace CoreOS
namespace User

open FileSys Files

/-- Where `main` of `ece391cat.c` is: at its calls, with its variables. -/
inductive Cat where
  | opening (buf : CStr)
  | notFound
  | reading (fd : ℤ) (buf : CStr)
  | readFailed
  | writing (fd : ℤ) (buf : CStr) (cnt : ℤ)
  | ended (status : ℤ)

namespace Cat

/-- `main` of `ece391cat.c`, after `ece391_getargs`. -/
def main : Program Call Answer Cat where
  call
    | .opening buf => some (.open buf)
    | .notFound => some (fdputs (literal "file not found\n"))
    | .reading fd _ => some (.read fd true 1024)
    | .readFailed => some (fdputs (literal "file read failed\n"))
    | .writing _ buf cnt => some (.write 1 (some (bytesOf buf (BitVec.ofInt 32 cnt).toNat)))
    | .ended _ => none
  resume
    | .opening buf, a => if a.ret = -1 then .notFound else .reading a.ret buf
    | .notFound, _ => .ended 2
    | .reading fd buf, a =>
      if a.ret = 0 then .ended 0
      else if a.ret = -1 then .readFailed
      else .writing fd (storeBytes buf a.bytes) a.ret
    | .readFailed, _ => .ended 3
    | .writing fd buf _, a => if a.ret = -1 then .ended 3 else .reading fd buf
    | .ended status, _ => .ended status

/-- The first `pos` bytes of the file have been read, and are `l`. -/
structure At (fs : Image) (inode : BitVec 32) (fd pos : ℕ) (m : FdMap) (l : List (BitVec 8)) : Prop where
  entry : m fd = some (.file inode (BitVec.ofNat 32 pos))
  pos_le : pos ≤ (fs.contents inode).length
  out_eq : l = (fs.contents inode).take pos

/-- What is known of the program when it has written `l`. -/
def Sound (fs : Image) (name : CStr) (inode : BitVec 32) (fd : ℕ) (m : FdMap) (p : Cat)
    (l : List (BitVec 8)) : Prop :=
  match p with
  | .opening buf => buf = name ∧ m.leastFree = some fd ∧ l = []
  | .reading fd' _ => fd' = fd ∧ ∃ pos, At fs inode fd pos m l
  | .writing fd' buf cnt => fd' = fd ∧ ∃ pos n : ℕ, cnt = n ∧ 0 < n ∧ n ≤ 1024 ∧ n ≤ pos ∧
      At fs inode fd pos m (l ++ bytesOf buf n)
  | .ended status => status = 0 ∧ l = fs.contents inode
  | .notFound => False
  | .readFailed => False

/-- The calls that are still to come. -/
def toCome (fs : Image) (inode : BitVec 32) (fd : ℕ) (m : FdMap) : Cat → ℕ
  | .opening _ => 2 * (((fs.contents inode).length + 1023) / 1024) + 2
  | .reading _ _ => 2 * ((bytesLeft fs inode fd m + 1023) / 1024) + 1
  | .writing _ _ _ => 2 * ((bytesLeft fs inode fd m + 1023) / 1024) + 2
  | .notFound => 1
  | .readFailed => 1
  | .ended _ => 0

variable {fs : Image} {dent : Dentry} {inode : BitVec 32} {fd pos pid : ℕ} {s : State} {m : FdMap}
  {l : List (BitVec 8)} {name : CStr}

theorem At.left_eq (h : At fs inode fd pos m l) (hlen : (fs.contents inode).length < 2 ^ 32) :
    bytesLeft fs inode fd m = (fs.contents inode).length - pos :=
  bytesLeft_eq h.entry h.pos_le hlen

/-- **A read** gives the bytes after the position, and moves the position behind them. -/
theorem At.read (hreg : Regular fs name dent) (hrun : Running s pid)
    (h : At fs dent.inodeNum fd pos (fdMap s pid) l) {o : Op} {a : Answer} (ho : Promised fs s o)
    (hmade : made fs pid s o = some (.read fd true 1024, a)) :
    ∃ n : ℕ, a.ret = n ∧ a.bytes.length = n ∧
      n = min 1024 ((fs.contents dent.inodeNum).length - pos) ∧ shown pid s o = [] ∧
      At fs dent.inodeNum fd (pos + n) (fdMap (step fs s o) pid) (l ++ a.bytes) := by
  obtain ⟨hbytes, hret, hend, hshown, -, hmap⟩ :=
    hreg.read hrun h.entry h.pos_le (by decide) ho hmade
  have hn : a.bytes.length = min 1024 ((fs.contents dent.inodeNum).length - pos) := by
    rw [hbytes, List.length_take, List.length_drop]
    rfl
  refine ⟨a.bytes.length, hret, rfl, hn, hshown, ⟨?_, hend, ?_⟩⟩
  · rw [hmap, Function.update_self]
  · have hpiece : ((fs.contents dent.inodeNum).drop pos).take a.bytes.length = a.bytes := by
      rw [hn, ← List.length_drop, ← List.take_eq_take_min]
      exact hbytes.symm
    rw [List.take_add, hpiece, h.out_eq]

/-- **One call of the program.** -/
theorem Sound.call (hreg : Regular fs name dent) {p : Cat} {o : Op} {c : Call} {a : Answer}
    (hrun : Running s pid) (hp : Sound fs name dent.inodeNum fd (fdMap s pid) p l)
    (ho : Promised fs s o) (hmade : made fs pid s o = some (c, a)) (hc : main.call p = some c) :
    Sound fs name dent.inodeNum fd (fdMap (step fs s o) pid) (main.resume p a) (l ++ shown pid s o) ∧
      toCome fs dent.inodeNum fd (fdMap (step fs s o) pid) (main.resume p a) <
        toCome fs dent.inodeNum fd (fdMap s pid) p := by
  have hlen := hreg.length
  cases p with
  | opening buf =>
    obtain ⟨rfl, hfree, rfl⟩ := hp
    cases hc
    obtain ⟨-, hret, hmap, hshown⟩ := hrun.open ho hmade hreg.found hfree
    have hat : At fs dent.inodeNum fd 0 (fdMap (step fs s o) pid) [] := by
      refine ⟨?_, Nat.zero_le _, rfl⟩
      rw [hmap, Function.update_self, Entry.ofDentry, hreg.type_eq]
      rfl
    have hnext : main.resume (.opening buf) a = .reading fd buf := by
      show (if a.ret = -1 then Cat.notFound else .reading a.ret buf) = _
      rw [hret, if_neg (by omega)]
    rw [hnext, hshown]
    refine ⟨⟨rfl, 0, hat⟩, ?_⟩
    simp only [toCome, hat.left_eq (by omega)]
    omega
  | notFound => exact hp.elim
  | reading fd' buf =>
    obtain ⟨rfl, pos, hat⟩ := hp
    cases hc
    obtain ⟨n, hret, hlength, hn, hshown, hat'⟩ := hat.read hreg hrun ho hmade
    rw [hshown, List.append_nil]
    by_cases hzero : n = 0
    · -- the end of the file
      have hnext : main.resume (.reading fd buf) a = .ended 0 := by
        show (if a.ret = 0 then Cat.ended 0 else if a.ret = -1 then .readFailed else _) = _
        rw [if_pos (by rw [hret, hzero]; rfl)]
      rw [hnext]
      have hend : pos = (fs.contents dent.inodeNum).length := by
        have hle := hat.pos_le
        omega
      refine ⟨⟨rfl, ?_⟩, Nat.succ_pos _⟩
      rw [hat.out_eq, hend, List.take_length]
    · have hnext : main.resume (.reading fd buf) a = .writing fd (storeBytes buf a.bytes) n := by
        show (if a.ret = 0 then Cat.ended 0 else if a.ret = -1 then .readFailed
          else .writing fd (storeBytes buf a.bytes) a.ret) = _
        rw [hret, if_neg (by omega), if_neg (by omega)]
      have hstored : bytesOf (storeBytes buf a.bytes) n = a.bytes := by
        rw [← hlength, bytesOf_storeBytes buf (Nat.le_refl _), List.take_length]
      rw [hnext]
      refine ⟨⟨rfl, pos + n, n, rfl, Nat.pos_of_ne_zero hzero, by omega, by omega, ?_⟩, ?_⟩
      · rw [hstored]
        exact hat'
      · simp only [toCome, hat.left_eq (by omega), hat'.left_eq (by omega)]
        omega
  | readFailed => exact hp.elim
  | writing fd' buf cnt =>
    obtain ⟨rfl, pos, n, rfl, hpos, hle, hn, hat⟩ := hp
    cases hc
    have hcount : (BitVec.ofInt 32 (n : ℤ)).toNat = n := by
      rw [BitVec.ofInt_natCast, BitVec.toNat_ofNat, Nat.mod_eq_of_lt (by omega)]
    rw [hcount] at hmade
    obtain ⟨-, hret, hmap, hshown⟩ := hrun.write ho (by rw [length_bytesOf]; omega) hmade
    rw [length_bytesOf] at hret
    have hnext : main.resume (.writing fd buf n) a = .reading fd buf := by
      show (if a.ret = -1 then Cat.ended 3 else .reading fd buf) = _
      rw [hret, if_neg (by omega)]
    rw [hnext, hshown, hmap]
    exact ⟨⟨rfl, pos, hat⟩, Nat.lt_succ_self _⟩
  | ended status => cases hc

theorem neverWaits (hreg : Regular fs name dent) (fd pid : ℕ) :
    NeverWaits main fs pid (Sound fs name dent.inodeNum fd) := by
  intro s p l c hrun hp hcur hc
  cases p with
  | opening buf =>
    obtain ⟨rfl, -, -⟩ := hp
    cases hc
    refine hrun.open_answered hcur fun dent' hname => ?_
    obtain rfl : dent = dent' := Option.some.inj (hreg.found.symm.trans hname)
    rw [hreg.type_eq]
    decide
  | notFound => exact hp.elim
  | reading fd' buf =>
    obtain ⟨rfl, pos, hat⟩ := hp
    cases hc
    exact hrun.read_answered hcur (Or.inl hat.entry) 1024
  | readFailed => exact hp.elim
  | writing fd' buf cnt =>
    cases hc
    exact hrun.write_answered hcur 1 (by rw [length_bytesOf]; exact BitVec.isLt _)
  | ended status => cases hc

theorem keeps (hreg : Regular fs name dent) (fd pid : ℕ) :
    Keeps main fs pid (Sound fs name dent.inodeNum fd) (toCome fs dent.inodeNum fd) where
  stays := by
    intro p c hc
    cases p <;> cases hc <;> exact ⟨Call.noConfusion, Call.noConfusion⟩
  call := Sound.call hreg

theorem Sound.initial {p : Cat} (h : Sound fs name inode fd m p l) : l <+: fs.contents inode := by
  cases p with
  | opening buf => exact h.2.2 ▸ List.nil_prefix
  | notFound => exact h.elim
  | reading fd' buf =>
    obtain ⟨-, pos, hat⟩ := h
    exact hat.out_eq ▸ List.take_prefix ..
  | readFailed => exact h.elim
  | writing fd' buf cnt =>
    obtain ⟨-, pos, n, -, -, -, -, hat⟩ := h
    exact (List.prefix_append l _).trans (hat.out_eq ▸ List.take_prefix ..)
  | ended status => exact h.2 ▸ List.prefix_refl _

theorem Sound.ended {p : Cat} (h : Sound fs name inode fd m p l) (hp : main.call p = none) :
    p = .ended 0 ∧ l = fs.contents inode := by
  cases p with
  | ended status => exact ⟨h.1 ▸ rfl, h.2⟩
  | _ => cases hp

/-- **`cat` prints the file.**  A process runs `cat` with the name of a regular file, and has a free
descriptor.  After any run, in any company, as long as it is not sent a C-c, what it has written is the
beginning of the file.  While it has not ended, its next call is answered when it has the processor.
When it has ended, its status is 0 and it has written the whole file.  All in all it makes two calls for
every 1024 bytes begun, and two more. -/
theorem prints_file (hs : Reachable fs s) (hlive : Live s pid) (hquiet : Unsignalled s pid)
    (hreg : Regular fs name dent) (hfree : (fdMap s pid).leastFree = some fd) {ops : List Op}
    (hops : Follows main fs pid s (.opening name) ops) :
    let contents := fs.contents dent.inodeNum
    let x := after main fs pid s (.opening name) ops
    printed main fs pid s (.opening name) ops <+: contents ∧
      (∀ c, main.call x.2 = some c → x.1.procs.cur = pid →
        ∃ o a, Promised fs x.1 o ∧ made fs pid x.1 o = some (c, a)) ∧
      (main.call x.2 = none →
        x.2 = .ended 0 ∧ printed main fs pid s (.opening name) ops = contents) ∧
      calls main fs pid s (.opening name) ops ≤ 2 * ((contents.length + 1023) / 1024) + 2 := by
  intro contents x
  have hkeeps := keeps hreg fd pid
  have hrun : Running s pid := ⟨hs.inv, hlive, hquiet⟩
  have hstart : Sound fs name dent.inodeNum fd (fdMap s pid) (.opening name) [] := ⟨rfl, hfree, rfl⟩
  obtain ⟨hrun', hsound⟩ := hkeeps.run hrun hstart hops
  exact ⟨hsound.initial, fun c hc hcur => neverWaits hreg fd pid hrun' hsound hcur hc, hsound.ended,
    hkeeps.calls_le hrun hstart hops⟩

/-- In place of the shell, `cat` prints the file `a` of an image. -/
theorem prints_file_oneFile :
    let name : CStr := fun k => if k = 0 then 0x61 else 0
    ∃ ops, Follows main oneFile 1 (firstShell oneFile) (.opening name) ops ∧
      (after main oneFile 1 (firstShell oneFile) (.opening name) ops).2 = .ended 0 ∧
      printed main oneFile 1 (firstShell oneFile) (.opening name) ops = [0x78, 0x79, 0x7A] := by
  intro name
  obtain ⟨dent, hdent⟩ : ∃ dent, oneFile.readDentryByName name = some dent := ⟨_, rfl⟩
  have hreg : Regular oneFile name dent := by
    cases hdent
    exact ⟨rfl, by decide, by decide, by decide, by decide⟩
  have hfree : (fdMap (firstShell oneFile) 1).leastFree = some 2 := by decide
  have hlive : Live (firstShell oneFile) 1 := show _ = true by decide
  have hquiet : Unsignalled (firstShell oneFile) 1 := by decide
  have hstart : Sound oneFile name dent.inodeNum 2 (fdMap (firstShell oneFile) 1) (.opening name) [] :=
    ⟨rfl, hfree, rfl⟩
  obtain ⟨ops, hops, hnone⟩ :=
    (keeps hreg 2 1).ends (neverWaits hreg 2 1) ⟨(reachable_firstShell oneFile).inv, hlive, hquiet⟩
      (by decide) hstart
  obtain ⟨-, -, hend, -⟩ := prints_file (reachable_firstShell oneFile) hlive hquiet hreg hfree hops
  refine ⟨ops, hops, (hend hnone).1, (hend hnone).2.trans ?_⟩
  cases hdent
  decide

end Cat
end User
end CoreOS
