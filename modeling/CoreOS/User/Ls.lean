import CoreOS.User.Process

/-!
# `ls`

`ece391ls.c`: it opens the directory, and then reads one name at a time into a buffer of 33 bytes, puts
a newline behind it and writes it to the terminal, until a read gives nothing.

## Which names

A read of the directory gives the name of the next entry, or nothing at the end.  But an entry without a
name gives nothing as well, so the program takes it for the end, and the names behind it are not
listed: `listed` is the names up to there.  A name of 32 bytes has no `NUL` in the directory.  It fills the
buffer up to the last byte, where the newline goes.

## The proof

`Sound` is the state of the program after it has written `l`.  At each of its calls it says which entry of
the directory is the next one, by the position in the descriptor, and `l` is the names before that entry.
The calls that would report an error are never reached.  `toCome` counts the calls to come, two for each
name that has not been read, and goes down with every call, so the program ends.

`lists_names` is about the program in a running system, like `Cat.prints_file`: other processes run
between its calls and start, write and end, and only a C-c for this process is excluded.
-/

namespace CoreOS
namespace User

open FileSys Files

/-- Where `main` of `ece391ls.c` is: at its calls, with the variables that are used again. -/
inductive Ls where
  | opening (buf : CStr)
  | openFailed
  | reading (fd : ℤ) (buf : CStr)
  | readFailed
  | writing (fd : ℤ) (buf : CStr) (cnt : ℤ)
  | ended (status : ℤ)

namespace Ls

/-- `main` of `ece391ls.c`. -/
def main : Program Call Answer Ls where
  call
    | .opening _ => some (.open (constant "."))
    | .openFailed => some (fdputs (literal "directory open failed\n"))
    | .reading fd _ => some (.read fd true 32)
    | .readFailed => some (fdputs (literal "directory entry read failed\n"))
    | .writing _ buf cnt => some (.write 1 (some (bytesOf buf (BitVec.ofInt 32 (cnt + 1)).toNat)))
    | .ended _ => none
  resume
    | .opening buf, a => if a.ret = -1 then .openFailed else .reading a.ret buf
    | .openFailed, _ => .ended 2
    | .reading fd buf, a =>
      if a.ret = 0 then .ended 0
      else if a.ret = -1 then .readFailed
      else .writing fd (Function.update (storeBytes buf a.bytes) a.ret.toNat (ch '\n')) a.ret
    | .readFailed, _ => .ended 3
    | .writing fd buf _, a => if a.ret = -1 then .ended 3 else .reading fd buf
    | .ended status, _ => .ended status

/-- The first `k` names, each on a line. -/
def lines (fs : Image) (k : ℕ) : List (BitVec 8) :=
  ((listed fs).take k).flatMap fun u => u ++ [ch '\n']

/-- What is known of the program when it has written `l`: the descriptor is the directory, at the entry
that is to be read next, and `l` is what comes before it.  At a write the name is in the buffer, with the
newline behind it. -/
def Sound (fs : Image) (inode : BitVec 32) (fd : ℕ) (m : FdMap) (p : Ls) (l : List (BitVec 8)) : Prop :=
  match p with
  | .opening _ => m.leastFree = some fd ∧ l = []
  | .reading fd' _ => fd' = fd ∧ ∃ k ≤ (listed fs).length,
      m fd = some (.dir inode (BitVec.ofNat 32 k)) ∧ l = lines fs k
  | .writing fd' buf cnt => fd' = fd ∧ ∃ k, ∃ hk : k < (listed fs).length,
      m fd = some (.dir inode (BitVec.ofNat 32 (k + 1))) ∧ l = lines fs k ∧
        cnt = (listed fs)[k].length ∧ (listed fs)[k].length ≤ maxNameLength ∧
        bytesOf buf ((listed fs)[k].length + 1) = (listed fs)[k] ++ [ch '\n']
  | .ended status => status = 0 ∧ l = lines fs (listed fs).length
  | .openFailed => False
  | .readFailed => False

/-- The names that have not been read, by the position in the descriptor. -/
def left (fs : Image) (fd : ℕ) (m : FdMap) : ℕ :=
  match m fd with
  | some (.dir _ pos) => (listed fs).length - pos.toNat
  | _ => 0

/-- The calls that are still to come: two for each name that has not been read, and those it takes to get
there. -/
def toCome (fs : Image) (fd : ℕ) (m : FdMap) : Ls → ℕ
  | .opening _ => 2 * (listed fs).length + 2
  | .reading _ _ => 2 * left fs fd m + 1
  | .writing _ _ _ => 2 * left fs fd m + 2
  | .openFailed => 1
  | .readFailed => 1
  | .ended _ => 0

variable {fs : Image} {dent : Dentry} {inode : BitVec 32} {fd k pid : ℕ} {s : State} {m : FdMap}
  {l : List (BitVec 8)}

theorem lines_succ (hk : k < (listed fs).length) :
    lines fs (k + 1) = lines fs k ++ ((listed fs)[k] ++ [ch '\n']) := by
  rw [lines, List.take_succ_eq_append_getElem hk, List.flatMap_append, List.flatMap_singleton, lines]

theorem length_listed_le (fs : Image) : (listed fs).length ≤ fs.numDentries.toNat := by
  obtain h | ⟨h, -⟩ := listed_length fs <;> omega

theorem left_eq (h : m fd = some (.dir inode (BitVec.ofNat 32 k))) (hk : k ≤ (listed fs).length) :
    left fs fd m = (listed fs).length - k := by
  have hle := length_listed_le fs
  have hlt := fs.numDentries.isLt
  rw [left, h]
  show _ - (BitVec.ofNat 32 k).toNat = _
  rw [BitVec.toNat_ofNat, Nat.mod_eq_of_lt (by omega)]

/-- **One call of the program**, and one call less to come.  A read that gives nothing is the end of the
names, and then all have been written. -/
theorem Sound.call (hdir : Folder fs dent) {p : Ls} {o : Op} {c : Call} {a : Answer}
    (hrun : Running s pid) (hp : Sound fs dent.inodeNum fd (fdMap s pid) p l) (ho : Promised fs s o)
    (hmade : made fs pid s o = some (c, a)) (hc : main.call p = some c) :
    Sound fs dent.inodeNum fd (fdMap (step fs s o) pid) (main.resume p a) (l ++ shown pid s o) ∧
      toCome fs fd (fdMap (step fs s o) pid) (main.resume p a) < toCome fs fd (fdMap s pid) p := by
  cases p with
  | opening buf =>
    obtain ⟨hfree, rfl⟩ := hp
    cases hc
    obtain ⟨-, hret, hmap, hshown⟩ := hrun.open ho hmade hdir.found hfree
    have hentry : fdMap (step fs s o) pid fd = some (.dir dent.inodeNum (BitVec.ofNat 32 0)) := by
      rw [hmap, Function.update_self, Entry.ofDentry, hdir.type_eq]
      rfl
    have hnext : main.resume (.opening buf) a = .reading fd buf := by
      show (if a.ret = -1 then Ls.openFailed else .reading a.ret buf) = _
      rw [hret, if_neg (by omega)]
    rw [hnext, hshown]
    refine ⟨⟨rfl, 0, Nat.zero_le _, hentry, rfl⟩, ?_⟩
    simp only [toCome, left_eq hentry (Nat.zero_le _)]
    omega
  | openFailed => exact hp.elim
  | reading fd' buf =>
    obtain ⟨rfl, k, hk, hentry, rfl⟩ := hp
    cases hc
    obtain ⟨hshown, ⟨hend, hret⟩ | ⟨hlt, hret, hne, hle, hbytes, hmap⟩⟩ :=
      hrun.read_name hentry hk ho hmade
    · have hnext : main.resume (.reading fd buf) a = .ended 0 := by
        show (if a.ret = 0 then Ls.ended 0 else if a.ret = -1 then .readFailed else _) = _
        rw [if_pos hret]
      rw [hnext, hshown, List.append_nil, hend]
      exact ⟨⟨rfl, rfl⟩, Nat.succ_pos _⟩
    · have hpos : 0 < (listed fs)[k].length := List.length_pos_iff.mpr hne
      have hnext : main.resume (.reading fd buf) a = .writing fd
          (Function.update (storeBytes buf a.bytes) (listed fs)[k].length (ch '\n'))
          (listed fs)[k].length := by
        show (if a.ret = 0 then Ls.ended 0 else if a.ret = -1 then .readFailed
          else .writing fd (Function.update (storeBytes buf a.bytes) a.ret.toNat (ch '\n')) a.ret) = _
        rw [hret, if_neg (by omega), if_neg (by omega), Int.toNat_natCast]
      have hentry' : fdMap (step fs s o) pid fd =
          some (.dir dent.inodeNum (BitVec.ofNat 32 (k + 1))) := by
        rw [hmap, Function.update_self]
      rw [hnext, hshown, List.append_nil]
      refine ⟨⟨rfl, k, hlt, hentry', rfl, rfl, hle, ?_⟩, ?_⟩
      · rw [bytesOf_succ, Function.update_self,
          bytesOf_congr fun i hi => Function.update_of_ne hi.ne _ _, hbytes]
      · simp only [toCome, left_eq hentry hk, left_eq hentry' hlt]
        omega
  | readFailed => exact hp.elim
  | writing fd' buf cnt =>
    obtain ⟨rfl, k, hlt, hentry, rfl, rfl, hle, hbuf⟩ := hp
    cases hc
    rw [maxNameLength] at hle
    have hcount : (BitVec.ofInt 32 (((listed fs)[k].length : ℤ) + 1)).toNat =
        (listed fs)[k].length + 1 := by
      rw [← Int.natCast_succ, BitVec.ofInt_natCast, BitVec.toNat_ofNat, Nat.mod_eq_of_lt (by omega)]
    rw [hcount, hbuf] at hmade
    obtain ⟨-, hret, hmap, hshown⟩ :=
      hrun.write ho (by rw [List.length_append, List.length_singleton]; omega) hmade
    have hnext : main.resume (.writing fd buf (listed fs)[k].length) a = .reading fd buf := by
      show (if a.ret = -1 then Ls.ended 3 else .reading fd buf) = _
      rw [hret, if_neg (by omega)]
    rw [hnext, hshown, hmap]
    exact ⟨⟨rfl, k + 1, hlt, hentry, (lines_succ hlt).symm⟩, Nat.lt_succ_self _⟩
  | ended status => cases hc

theorem neverWaits (hdir : Folder fs dent) (fd pid : ℕ) :
    NeverWaits main fs pid (Sound fs dent.inodeNum fd) := by
  intro s p l c hrun hp hcur hc
  cases p with
  | opening buf =>
    cases hc
    refine hrun.open_answered hcur fun dent' hname => ?_
    obtain rfl : dent = dent' := Option.some.inj (hdir.found.symm.trans hname)
    rw [hdir.type_eq]
    decide
  | openFailed => exact hp.elim
  | reading fd' buf =>
    obtain ⟨rfl, k, -, hentry, -⟩ := hp
    cases hc
    exact hrun.read_answered hcur (Or.inr hentry) 32
  | readFailed => exact hp.elim
  | writing fd' buf cnt =>
    cases hc
    exact hrun.write_answered hcur 1 (by rw [length_bytesOf]; exact BitVec.isLt _)
  | ended status => cases hc

theorem keeps (hdir : Folder fs dent) (fd pid : ℕ) :
    Keeps main fs pid (Sound fs dent.inodeNum fd) (toCome fs fd) where
  stays := by
    intro p c hc
    cases p <;> cases hc <;> exact ⟨Call.noConfusion, Call.noConfusion⟩
  call := Sound.call hdir

theorem Sound.exists_lines {p : Ls} (h : Sound fs inode fd m p l) :
    ∃ k ≤ (listed fs).length, l = lines fs k := by
  cases p with
  | opening buf => exact ⟨0, Nat.zero_le _, h.2⟩
  | openFailed => exact h.elim
  | reading fd' buf =>
    obtain ⟨-, k, hk, -, hl⟩ := h
    exact ⟨k, hk, hl⟩
  | readFailed => exact h.elim
  | writing fd' buf cnt =>
    obtain ⟨-, k, hk, -, hl, -⟩ := h
    exact ⟨k, hk.le, hl⟩
  | ended status => exact ⟨_, Nat.le_refl _, h.2⟩

theorem Sound.ended {p : Ls} (h : Sound fs inode fd m p l) (hp : main.call p = none) :
    p = .ended 0 ∧ l = lines fs (listed fs).length := by
  cases p with
  | ended status => exact ⟨h.1 ▸ rfl, h.2⟩
  | _ => cases hp

/-- **`ls` lists the names.**  A process runs `ls`, and has a free descriptor.  After any run, in any
company, as long as it is not sent a C-c, it has written the first few names, each on a line.  While it
has not ended, its next call is answered when it has the processor.  When it has ended, its status is 0
and it has written all names up to the first entry without one.  It makes two calls for each name, and
two more. -/
theorem lists_names (hs : Reachable fs s) (hlive : Live s pid) (hquiet : Unsignalled s pid)
    (hdir : Folder fs dent) (hfree : (fdMap s pid).leastFree = some fd) (buf : CStr) {ops : List Op}
    (hops : Follows main fs pid s (.opening buf) ops) :
    let x := after main fs pid s (.opening buf) ops
    (∃ k ≤ (listed fs).length, printed main fs pid s (.opening buf) ops = lines fs k) ∧
      (∀ c, main.call x.2 = some c → x.1.procs.cur = pid →
        ∃ o a, Promised fs x.1 o ∧ made fs pid x.1 o = some (c, a)) ∧
      (main.call x.2 = none →
        x.2 = .ended 0 ∧
          printed main fs pid s (.opening buf) ops = lines fs (listed fs).length) ∧
      calls main fs pid s (.opening buf) ops ≤ 2 * (listed fs).length + 2 := by
  intro x
  have hkeeps := keeps hdir fd pid
  have hrun : Running s pid := ⟨hs.inv, hlive, hquiet⟩
  have hstart : Sound fs dent.inodeNum fd (fdMap s pid) (.opening buf) [] := ⟨hfree, rfl⟩
  obtain ⟨hrun', hsound⟩ := hkeeps.run hrun hstart hops
  exact ⟨hsound.exists_lines, fun c hc hcur => neverWaits hdir fd pid hrun' hsound hcur hc, hsound.ended,
    hkeeps.calls_le hrun hstart hops⟩

/-- An image with the entries `.`, `ab`, one without a name, and `c`. -/
def fourEntries : Image where
  bblockPtr := 0
  mem a :=
    if a = 0 then 4
    else if a = 64 then 0x2E
    else if a = 96 then 1
    else if a = 128 then 0x61
    else if a = 129 then 0x62
    else if a = 256 then 0x63
    else 0

/-- In place of the shell, `ls` lists the two names before the entry without one. -/
theorem lists_names_fourEntries :
    let s := firstShell fourEntries
    let p : Ls := .opening fun _ => 7
    ∃ ops, Follows main fourEntries 1 s p ops ∧ (after main fourEntries 1 s p ops).2 = .ended 0 ∧
      printed main fourEntries 1 s p ops = [0x2E, 0x0A, 0x61, 0x62, 0x0A] := by
  intro s p
  obtain ⟨dent, hdent⟩ : ∃ dent, fourEntries.readDentryByName (constant ".") = some dent := ⟨_, rfl⟩
  have hdir : Folder fourEntries dent := by
    cases hdent
    exact ⟨rfl, by decide⟩
  have hfree : (fdMap s 1).leastFree = some 2 := by decide
  have hlive : Live s 1 := show _ = true by decide
  have hquiet : Unsignalled s 1 := by decide
  have hstart : Sound fourEntries dent.inodeNum 2 (fdMap s 1) p [] := ⟨hfree, rfl⟩
  obtain ⟨ops, hops, hnone⟩ :=
    (keeps hdir 2 1).ends (neverWaits hdir 2 1) ⟨(reachable_firstShell fourEntries).inv, hlive, hquiet⟩
      (by decide) hstart
  obtain ⟨-, -, hend, -⟩ :=
    lists_names (reachable_firstShell fourEntries) hlive hquiet hdir hfree _ hops
  exact ⟨ops, hops, (hend hnone).1, (hend hnone).2.trans (by decide)⟩

end Ls
end User
end CoreOS
