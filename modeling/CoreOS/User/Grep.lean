import CoreOS.User.Search

/-!
# `grep`

`ece391grep.c`, from the point where it has its argument.  `doOneFile` is `do_one_file`: it opens a
file, reads it into the buffer of `Search` piece by piece, writes what each pass reports, and closes the
file.

`reports_lines` is about the function in a running system.  Whatever else goes on between its calls, at
every moment it has written the beginning of what a search of the whole file reports, a line of the
output for each line with the pattern in it; when it returns, it returns 0, it has written all of it,
and the process has the descriptors that it had before.  The file is a text without `NUL` bytes, and no
line of it is longer than the buffer.
-/

namespace CoreOS
namespace User

open FileSys Files

/-- Where `do_one_file` is: at its calls, with its variables. -/
inductive OneFile where
  | opening (data : CStr)
  | openFailed
  | reading (fd : ℤ) (data : CStr) (last : ℕ)
  | readFailed
  | printing (fd cnt : ℤ) (string : List (BitVec 8)) (pass : Pass)
  | closing (fd : ℤ)
  | closeFailed
  | returned (ret : ℤ)

namespace OneFile

/-- The buffer, once some bytes have been stored from `start` on. -/
def storeAt (data : CStr) (start : ℕ) (bytes : List (BitVec 8)) : CStr := fun i =>
  if i < start then data i else bytes.getD (i - start) (data i)

/-- Where `do_one_file` goes on when a pass is over, or one of its strings is written. -/
def proceed (fd cnt : ℤ) (pass : Pass) : OneFile :=
  match pass.strings with
  | string :: strings => .printing fd cnt string { pass with strings := strings }
  | [] => if cnt = 0 then .closing fd else .reading fd pass.data pass.last

/-- `do_one_file`. -/
def doOneFile (s fname : List (BitVec 8)) : Program Call Answer OneFile where
  call
    | .opening _ => some (.open (pointer fname))
    | .openFailed => some (fdputs (literal "file open failed\n"))
    | .reading fd _ last => some (.read fd true (BitVec.ofNat 32 (bufSize - last)))
    | .readFailed => some (fdputs (literal "file read failed\n"))
    | .printing _ _ string _ => some (fdputs string)
    | .closing fd => some (.close fd)
    | .closeFailed => some (fdputs (literal "file close failed\n"))
    | .returned _ => none
  resume
    | .opening data, a => if a.ret = -1 then .openFailed else .reading a.ret data 0
    | .openFailed, _ => .returned (-1)
    | .reading fd data last, a =>
      if a.ret = -1 then .readFailed
      else
        let data := storeAt data last a.bytes
        let last := last + a.ret.toNat
        proceed fd a.ret (scan s fname a.ret last (last + 1) data 0)
    | .readFailed, _ => .returned (-1)
    | .printing fd cnt _ pass, _ => proceed fd cnt pass
    | .closing _, a => if a.ret = -1 then .closeFailed else .returned 0
    | .closeFailed, _ => .returned (-1)
    | .returned ret, _ => .returned ret

/-- A file that can be searched. -/
structure Searchable (fs : Image) (fname : List (BitVec 8)) (dent : Dentry) : Prop
    extends Regular fs (pointer fname) dent where
  ne_nul : ∀ c ∈ fs.contents dent.inodeNum, c ≠ 0
  short : Short (fs.contents dent.inodeNum)

/-- The file has been read up to `pos`; some of it is in the buffer of `pass`, whose strings have not
been written yet; and `l` is what has been written. -/
structure Going (fs : Image) (s fname : List (BitVec 8)) (inode : BitVec 32) (m₀ : FdMap) (fd : ℕ)
    (m : FdMap) (pos : ℕ) (pass : Pass) (l : List (BitVec 8)) : Prop where
  map_eq : m = Function.update m₀ fd (some (.file inode (BitVec.ofNat 32 pos)))
  pos_le : pos ≤ (fs.contents inode).length
  buffered : Buffered pass.data 0 pass.last ((fs.contents inode).drop pos)
  last_lt : pass.last < bufSize
  length_le : ∀ v ∈ pass.strings, v = fname ∨ v.length ≤ bufSize
  found_eq : found s fname (fs.contents inode) = l ++ (pass.strings.flatten ++
    found s fname (slice pass.data 0 pass.last ++ (fs.contents inode).drop pos))

/-- After a read that gave nothing, nothing is left. -/
def AtEnd (fs : Image) (inode : BitVec 32) (cnt : ℤ) (pos : ℕ) (pass : Pass) : Prop :=
  cnt = 0 → pass.last = 0 ∧ (fs.contents inode).drop pos = []

/-- What is known of the function when it has written `l`. -/
def Sound (fs : Image) (s fname : List (BitVec 8)) (inode : BitVec 32) (m₀ : FdMap) (fd : ℕ) (m : FdMap)
    (p : OneFile) (l : List (BitVec 8)) : Prop :=
  match p with
  | .opening data => m = m₀ ∧ data bufSize ≠ nl ∧ l = []
  | .reading fd' data last => fd' = fd ∧ ∃ pos, Going fs s fname inode m₀ fd m pos ⟨[], data, last⟩ l
  | .printing fd' cnt string pass => fd' = fd ∧ ∃ pos,
      Going fs s fname inode m₀ fd m pos { pass with strings := string :: pass.strings } l ∧
        AtEnd fs inode cnt pos pass
  | .closing fd' => fd' = fd ∧ (∃ e, m = Function.update m₀ fd (some e)) ∧
      l = found s fname (fs.contents inode)
  | .returned ret => ret = 0 ∧ m = m₀ ∧ l = found s fname (fs.contents inode)
  | .openFailed => False
  | .readFailed => False
  | .closeFailed => False

/-- The calls that are still to come, at most. -/
def toCome (fs : Image) (inode : BitVec 32) (fd : ℕ) (m : FdMap) : OneFile → ℕ
  | .opening _ => 6 * (fs.contents inode).length + 4
  | .reading _ _ last => 6 * bytesLeft fs inode fd m + 5 * last + 3
  | .printing _ cnt _ pass =>
    if cnt = 0 then pass.strings.length + 3
    else 6 * bytesLeft fs inode fd m + 5 * pass.last + pass.strings.length + 4
  | .closing _ => 2
  | .openFailed => 1
  | .readFailed => 1
  | .closeFailed => 1
  | .returned _ => 0

variable {fs : Image} {s fname : List (BitVec 8)} {dent : Dentry} {inode : BitVec 32} {m₀ m : FdMap}
  {fd pos pid last : ℕ} {cnt : ℤ} {data : CStr} {pass : Pass} {l bytes : List (BitVec 8)} {st : State}

theorem Going.bytesLeft_eq (h : Going fs s fname inode m₀ fd m pos pass l)
    (hlen : (fs.contents inode).length < 2 ^ 32) :
    bytesLeft fs inode fd m = (fs.contents inode).length - pos := by
  refine User.bytesLeft_eq ?_ h.pos_le hlen
  rw [h.map_eq, Function.update_self]

/-- Where the function goes on after a pass. -/
theorem Going.proceed (h : Going fs s fname inode m₀ fd m pos pass l) (hend : AtEnd fs inode cnt pos pass)
    (hlen : (fs.contents inode).length < 2 ^ 32) :
    Sound fs s fname inode m₀ fd m (proceed fd cnt pass) l ∧
      toCome fs inode fd m (OneFile.proceed fd cnt pass) ≤
        (if cnt = 0 then 0 else 6 * ((fs.contents inode).length - pos) + 5 * pass.last + 1) +
          pass.strings.length + 2 := by
  obtain ⟨strings, data, last⟩ := pass
  cases strings with
  | cons string strings =>
    refine ⟨⟨rfl, pos, h, hend⟩, ?_⟩
    simp only [OneFile.proceed, toCome, h.bytesLeft_eq hlen, List.length_cons]
    split_ifs <;> omega
  | nil =>
    unfold OneFile.proceed
    dsimp only
    by_cases hcnt : cnt = 0
    · obtain ⟨hlast, hrest⟩ := hend hcnt
      rw [if_pos hcnt, if_pos hcnt]
      refine ⟨⟨rfl, ⟨_, h.map_eq⟩, ?_⟩, Nat.le_refl 2⟩
      have hfound := h.found_eq
      dsimp only at hlast hfound
      rw [hrest, hlast, List.flatten_nil, List.nil_append, List.append_nil] at hfound
      have hempty : found s fname (slice data 0 0) = [] := found_nil
      rw [hempty, List.append_nil] at hfound
      exact hfound.symm
    · rw [if_neg hcnt, if_neg hcnt]
      refine ⟨⟨rfl, pos, h⟩, ?_⟩
      simp only [toCome, h.bytesLeft_eq hlen, List.length_nil]
      omega

theorem slice_storeAt (data : CStr) (last : ℕ) (bytes : List (BitVec 8)) :
    slice (storeAt data last bytes) 0 (last + bytes.length) = slice data 0 last ++ bytes := by
  rw [slice_add]
  congr 1
  · refine slice_congr fun k hk => ?_
    rw [storeAt, if_pos (by omega)]
  · refine List.ext_getElem (length_slice ..) fun k hk hk' => ?_
    rw [getElem_slice, storeAt, if_neg (by omega), show 0 + last + k - last = k by omega,
      List.getD_eq_getElem _ _ hk']

/-- **A read** puts the next piece of the file behind what is in the buffer. -/
theorem buffered_storeAt {rest : List (BitVec 8)} (h : Buffered data 0 last (bytes ++ rest))
    (hne : ∀ c ∈ bytes, c ≠ 0) (hlen : last + bytes.length ≤ bufSize) :
    Buffered (storeAt data last bytes) 0 (last + bytes.length) rest where
  ne_nul := by
    intro k _ hk
    rw [storeAt]
    split_ifs with hlt
    · exact h.ne_nul k (Nat.zero_le k) hlt
    · rw [List.getD_eq_getElem _ _ (by omega)]
      exact hne _ (List.getElem_mem _)
  guard := by
    rw [storeAt, if_neg (by omega), List.getD_eq_default _ _ (by omega)]
    exact h.guard
  last_le := hlen
  short := by
    rw [Nat.sub_zero, slice_storeAt, List.append_assoc]
    exact h.short

/-- The file that has been opened, before the first read. -/
theorem going_start (hsearch : Searchable fs fname dent) (hguard : data bufSize ≠ nl) :
    Going fs s fname dent.inodeNum m₀ fd
      (Function.update m₀ fd (some (.file dent.inodeNum (BitVec.ofNat 32 0)))) 0 ⟨[], data, 0⟩ [] where
  map_eq := rfl
  pos_le := Nat.zero_le _
  buffered := ⟨fun k _ hk => absurd hk (Nat.not_lt_zero k), hguard, Nat.zero_le _, hsearch.short⟩
  last_lt := Nat.succ_pos _
  length_le := fun _ hv => absurd hv List.not_mem_nil
  found_eq := rfl

/-- **A read and the pass after it.** -/
theorem going_read (hs : ∀ c ∈ s, c ≠ 0) (hsearch : Searchable fs fname dent)
    (h : Going fs s fname dent.inodeNum m₀ fd m pos ⟨[], data, last⟩ l)
    (hbytes : bytes = ((fs.contents dent.inodeNum).drop pos).take (bufSize - last)) :
    let r := scan s fname bytes.length (last + bytes.length) (last + bytes.length + 1)
      (storeAt data last bytes) 0
    Going fs s fname dent.inodeNum m₀ fd
        (Function.update m fd (some (.file dent.inodeNum (BitVec.ofNat 32 (pos + bytes.length)))))
        (pos + bytes.length) r l ∧
      AtEnd fs dent.inodeNum bytes.length (pos + bytes.length) r ∧
      r.strings.length + 5 * r.last ≤ 5 * (last + bytes.length) := by
  intro r
  have hlt : last < bufSize := h.last_lt
  have hcount : bytes.length = min (bufSize - last) ((fs.contents dent.inodeNum).length - pos) := by
    rw [hbytes, List.length_take, List.length_drop]
  have hpos := h.pos_le
  have hpiece : ((fs.contents dent.inodeNum).drop pos).take bytes.length = bytes := by
    rw [hcount, ← List.length_drop, ← List.take_eq_take_min]
    exact hbytes.symm
  have hrest : (fs.contents dent.inodeNum).drop pos =
      bytes ++ (fs.contents dent.inodeNum).drop (pos + bytes.length) := by
    calc (fs.contents dent.inodeNum).drop pos
        = ((fs.contents dent.inodeNum).drop pos).take bytes.length ++
            ((fs.contents dent.inodeNum).drop pos).drop bytes.length :=
          (List.take_append_drop ..).symm
      _ = bytes ++ (fs.contents dent.inodeNum).drop (pos + bytes.length) := by
          rw [hpiece, List.drop_drop]
  have hbuffered : Buffered data 0 last
      (bytes ++ (fs.contents dent.inodeNum).drop (pos + bytes.length)) := by
    have hold := h.buffered
    rwa [hrest] at hold
  have hne : ∀ c ∈ bytes, c ≠ 0 := by
    intro c hc
    rw [← hpiece] at hc
    exact hsearch.ne_nul c (List.mem_of_mem_drop (List.mem_of_mem_take hc))
  have hlast : last + bytes.length ≤ bufSize := by omega
  have hend : (bytes.length : ℤ) = 0 →
      (fs.contents dent.inodeNum).drop (pos + bytes.length) = [] := by
    intro hzero
    exact List.drop_eq_nil_of_le (by omega)
  have hfull : (fs.contents dent.inodeNum).drop (pos + bytes.length) ≠ [] →
      last + bytes.length = bufSize := by
    intro hmore
    have hlt' := List.length_pos_iff.mpr hmore
    rw [List.length_drop] at hlt'
    omega
  have hscan : Scanned s fname bytes.length (last + bytes.length - 0)
      (slice (storeAt data last bytes) 0 (last + bytes.length - 0))
      ((fs.contents dent.inodeNum).drop (pos + bytes.length)) r :=
    scan_spec hs (buffered_storeAt hbuffered hne hlast) (Or.inl rfl) hend hfull (Nat.lt_succ_self _)
  rw [Nat.sub_zero, slice_storeAt] at hscan
  refine ⟨⟨?_, by omega, hscan.buffered, hscan.last_lt, hscan.length_le, ?_⟩,
    fun hzero => ⟨hscan.last_eq hzero, hend hzero⟩, hscan.strings_le⟩
  · rw [h.map_eq, Function.update_idem]
  · rw [h.found_eq, hrest, ← hscan.found_eq, List.append_assoc]
    rfl

/-- **One call of the function.** -/
theorem Sound.call (hs : ∀ c ∈ s, c ≠ 0) (hname : fname.length < 2 ^ 31)
    (hsearch : Searchable fs fname dent) (hfree : m₀.leastFree = some fd) {p : OneFile} {o : Op}
    {c : Call} {a : Answer} (hrun : Running st pid)
    (hp : Sound fs s fname dent.inodeNum m₀ fd (fdMap st pid) p l) (ho : Promised fs st o)
    (hmade : made fs pid st o = some (c, a)) (hc : (doOneFile s fname).call p = some c) :
    Sound fs s fname dent.inodeNum m₀ fd (fdMap (step fs st o) pid)
        ((doOneFile s fname).resume p a) (l ++ shown pid st o) ∧
      toCome fs dent.inodeNum fd (fdMap (step fs st o) pid) ((doOneFile s fname).resume p a) <
        toCome fs dent.inodeNum fd (fdMap st pid) p := by
  have hlen := hsearch.toRegular.length
  obtain ⟨hge, hlt, hnone⟩ := leastFree_spec hfree
  cases p with
  | opening data =>
    obtain ⟨hmap₀, hguard, rfl⟩ := hp
    cases hc
    rw [← hmap₀] at hfree
    obtain ⟨-, hret, hmap, hshown⟩ := hrun.open ho hmade hsearch.found hfree
    have hnext : (doOneFile s fname).resume (.opening data) a = .reading fd data 0 := by
      show (if a.ret = -1 then OneFile.openFailed else .reading a.ret data 0) = _
      rw [hret, if_neg (by omega)]
    have hentry : Entry.ofDentry dent = .file dent.inodeNum (BitVec.ofNat 32 0) := by
      rw [Entry.ofDentry, hsearch.type_eq]
      rfl
    rw [hentry, hmap₀] at hmap
    have hgoing : Going fs s fname dent.inodeNum m₀ fd (fdMap (step fs st o) pid) 0 ⟨[], data, 0⟩ [] :=
      hmap ▸ going_start hsearch hguard
    rw [hnext, hshown]
    refine ⟨⟨rfl, 0, hgoing⟩, ?_⟩
    simp only [toCome, hgoing.bytesLeft_eq (by omega)]
    omega
  | openFailed => exact hp.elim
  | reading fd' data last =>
    obtain ⟨rfl, pos, hgoing⟩ := hp
    cases hc
    have hlast : last < bufSize := hgoing.last_lt
    have hentry : fdMap st pid fd = some (.file dent.inodeNum (BitVec.ofNat 32 pos)) := by
      rw [hgoing.map_eq, Function.update_self]
    have hcount : (BitVec.ofNat 32 (bufSize - last)).toNat = bufSize - last := by
      rw [BitVec.toNat_ofNat, bufSize, Nat.mod_eq_of_lt (by omega)]
    obtain ⟨hbytes, hret, -, hshown, -, hmap⟩ := hsearch.toRegular.read hrun hentry hgoing.pos_le
      (by rw [hcount, bufSize]; omega) ho hmade
    rw [hcount] at hbytes
    obtain ⟨hgoing', hend, hstrings⟩ := going_read hs hsearch hgoing hbytes
    have hnext : (doOneFile s fname).resume (.reading fd data last) a =
        proceed fd a.bytes.length (scan s fname a.bytes.length (last + a.bytes.length)
          (last + a.bytes.length + 1) (storeAt data last a.bytes) 0) := by
      show (if a.ret = -1 then OneFile.readFailed else proceed fd a.ret (scan s fname a.ret
        (last + a.ret.toNat) (last + a.ret.toNat + 1) (storeAt data last a.bytes) 0)) = _
      rw [hret, if_neg (by omega), Int.toNat_natCast]
    rw [← hmap] at hgoing'
    obtain ⟨hsound, hcome⟩ := hgoing'.proceed hend (by omega)
    rw [hnext, hshown, List.append_nil]
    refine ⟨hsound, hcome.trans_lt ?_⟩
    have hpos' := hgoing'.pos_le
    simp only [toCome, hgoing.bytesLeft_eq (by omega)]
    split_ifs <;> omega
  | readFailed => exact hp.elim
  | printing fd' cnt string pass =>
    obtain ⟨rfl, pos, hgoing, hend⟩ := hp
    cases hc
    have hshort : string.length < 2 ^ 31 := by
      rcases hgoing.length_le string List.mem_cons_self with rfl | hle
      · exact hname
      · rw [bufSize] at hle
        omega
    obtain ⟨-, -, hmap, hshown⟩ := hrun.write ho hshort hmade
    have hgoing' : Going fs s fname dent.inodeNum m₀ fd (fdMap (step fs st o) pid) pos pass
        (l ++ string) := by
      refine ⟨hmap ▸ hgoing.map_eq, hgoing.pos_le, hgoing.buffered, hgoing.last_lt,
        fun v hv => hgoing.length_le v (List.mem_cons_of_mem _ hv), ?_⟩
      rw [hgoing.found_eq, List.flatten_cons, List.append_assoc, List.append_assoc]
    obtain ⟨hsound, hcome⟩ := hgoing'.proceed hend (by omega)
    rw [hshown]
    refine ⟨hsound, hcome.trans_lt ?_⟩
    simp only [toCome, hgoing.bytesLeft_eq (by omega)]
    split_ifs <;> omega
  | closing fd' =>
    obtain ⟨rfl, ⟨e, hmap₀⟩, rfl⟩ := hp
    cases hc
    have hopen : fdMap st pid fd ≠ none := by
      rw [hmap₀, Function.update_self]
      exact Option.some_ne_none e
    obtain ⟨-, hret, hmap, hshown⟩ := hrun.close ho hge hlt hopen hmade
    have hnext : (doOneFile s fname).resume (.closing fd) a = .returned 0 := by
      show (if a.ret = -1 then OneFile.closeFailed else .returned 0) = _
      rw [hret, if_neg (by decide)]
    rw [hnext, hshown, List.append_nil]
    refine ⟨⟨rfl, ?_, rfl⟩, Nat.succ_pos _⟩
    rw [hmap, hmap₀, Function.update_idem, ← hnone, Function.update_eq_self]
  | closeFailed => exact hp.elim
  | returned ret => cases hc

theorem neverWaits (hname : fname.length < 2 ^ 31) (hsearch : Searchable fs fname dent) (m₀ : FdMap)
    (fd pid : ℕ) : NeverWaits (doOneFile s fname) fs pid (Sound fs s fname dent.inodeNum m₀ fd) := by
  intro st p l c hrun hp hcur hc
  cases p with
  | opening data =>
    cases hc
    refine hrun.open_answered hcur fun dent' hfound => ?_
    obtain rfl : dent = dent' := Option.some.inj (hsearch.found.symm.trans hfound)
    rw [hsearch.type_eq]
    decide
  | openFailed => exact hp.elim
  | reading fd' data last =>
    obtain ⟨rfl, pos, hgoing⟩ := hp
    cases hc
    have hentry : fdMap st pid fd = some (.file dent.inodeNum (BitVec.ofNat 32 pos)) := by
      rw [hgoing.map_eq, Function.update_self]
    exact hrun.read_answered hcur (Or.inl hentry) _
  | readFailed => exact hp.elim
  | printing fd' cnt string pass =>
    obtain ⟨rfl, pos, hgoing, -⟩ := hp
    cases hc
    refine hrun.write_answered hcur 1 ?_
    rcases hgoing.length_le string List.mem_cons_self with rfl | hle
    · omega
    · rw [bufSize] at hle
      omega
  | closing fd' =>
    cases hc
    exact hrun.close_answered hcur fd'
  | closeFailed => exact hp.elim
  | returned ret => cases hc

theorem keeps (hs : ∀ c ∈ s, c ≠ 0) (hname : fname.length < 2 ^ 31) (hsearch : Searchable fs fname dent)
    (hfree : m₀.leastFree = some fd) (pid : ℕ) :
    Keeps (doOneFile s fname) fs pid (Sound fs s fname dent.inodeNum m₀ fd)
      (toCome fs dent.inodeNum fd) where
  stays := by
    intro p c hc
    cases p <;> cases hc <;> exact ⟨Call.noConfusion, Call.noConfusion⟩
  call := Sound.call hs hname hsearch hfree

theorem Sound.initial {p : OneFile} (h : Sound fs s fname inode m₀ fd m p l) :
    l <+: found s fname (fs.contents inode) := by
  cases p with
  | opening data => exact h.2.2 ▸ List.nil_prefix
  | openFailed => exact h.elim
  | reading fd' data last =>
    obtain ⟨-, pos, hgoing⟩ := h
    exact hgoing.found_eq ▸ List.prefix_append ..
  | readFailed => exact h.elim
  | printing fd' cnt string pass =>
    obtain ⟨-, pos, hgoing, -⟩ := h
    exact hgoing.found_eq ▸ List.prefix_append ..
  | closing fd' => exact h.2.2 ▸ List.prefix_refl _
  | closeFailed => exact h.elim
  | returned ret => exact h.2.2 ▸ List.prefix_refl _

/-- The other descriptors are left alone. -/
theorem Sound.frame {p : OneFile} (h : Sound fs s fname inode m₀ fd m p l) {d : ℕ} (hd : d ≠ fd) :
    m d = m₀ d := by
  cases p with
  | opening data => rw [h.1]
  | openFailed => exact h.elim
  | reading fd' data last =>
    obtain ⟨-, pos, hgoing⟩ := h
    rw [hgoing.map_eq, Function.update_of_ne hd]
  | readFailed => exact h.elim
  | printing fd' cnt string pass =>
    obtain ⟨-, pos, hgoing, -⟩ := h
    rw [hgoing.map_eq, Function.update_of_ne hd]
  | closing fd' =>
    obtain ⟨-, ⟨e, hmap⟩, -⟩ := h
    rw [hmap, Function.update_of_ne hd]
  | closeFailed => exact h.elim
  | returned ret => rw [h.2.1]

theorem Sound.returned {p : OneFile} (h : Sound fs s fname inode m₀ fd m p l)
    (hp : (doOneFile s fname).call p = none) :
    p = .returned 0 ∧ m = m₀ ∧ l = found s fname (fs.contents inode) := by
  cases p with
  | returned ret => exact ⟨h.1 ▸ rfl, h.2⟩
  | _ => cases hp

/-- **`do_one_file` reports the lines.**  A process has a free descriptor and calls `do_one_file` with
the name of a text file, with whatever its buffer holds but a newline behind it.  After any run, in any
company, as long as the process is not sent a C-c, what it has written is the beginning of what is to be
reported.  While it has not returned, its next call is answered when it has the processor.  When it has
returned, it has returned 0, it has written all that is to be reported, and the descriptors are those it
began with.  It makes at most six calls for each byte of the file, and four more. -/
theorem reports_lines (hst : Reachable fs st) (hlive : Live st pid) (hquiet : Unsignalled st pid)
    (hs : ∀ c ∈ s, c ≠ 0) (hname : fname.length < 2 ^ 31) (hsearch : Searchable fs fname dent)
    (hfree : (fdMap st pid).leastFree = some fd) (hguard : data bufSize ≠ nl) {ops : List Op}
    (hops : Follows (doOneFile s fname) fs pid st (.opening data) ops) :
    let x := after (doOneFile s fname) fs pid st (.opening data) ops
    let out := found s fname (fs.contents dent.inodeNum)
    printed (doOneFile s fname) fs pid st (.opening data) ops <+: out ∧
      (∀ c, (doOneFile s fname).call x.2 = some c → x.1.procs.cur = pid →
        ∃ o a, Promised fs x.1 o ∧ made fs pid x.1 o = some (c, a)) ∧
      ((doOneFile s fname).call x.2 = none →
        x.2 = .returned 0 ∧ fdMap x.1 pid = fdMap st pid ∧
          printed (doOneFile s fname) fs pid st (.opening data) ops = out) ∧
      calls (doOneFile s fname) fs pid st (.opening data) ops ≤
        6 * (fs.contents dent.inodeNum).length + 4 := by
  intro x out
  have hkeeps := keeps hs hname hsearch hfree pid
  have hrun : Running st pid := ⟨hst.inv, hlive, hquiet⟩
  have hstart : Sound fs s fname dent.inodeNum (fdMap st pid) fd (fdMap st pid) (.opening data) [] :=
    ⟨rfl, hguard, rfl⟩
  obtain ⟨hrun', hsound⟩ := hkeeps.run hrun hstart hops
  exact ⟨hsound.initial, fun c hc hcur => neverWaits hname hsearch _ fd pid hrun' hsound hcur hc,
    hsound.returned, hkeeps.calls_le hrun hstart hops⟩

/-- An image with the directory and the file `a`, which holds the lines `xy`, `y` and `xyy`. -/
def threeLines : Image where
  bblockPtr := 0
  mem a :=
    if a = 0 then 2
    else if a = 4 ∨ a = 8 then 1
    else if a = 64 then 0x2E
    else if a = 96 then 1
    else if a = 128 then 0x61
    else if a = 160 then 2
    else if a = 4096 then 8
    else if a = 8192 ∨ a = 8197 then 0x78
    else if a = 8193 ∨ a = 8195 ∨ a = 8198 ∨ a = 8199 then 0x79
    else if a = 8194 ∨ a = 8196 then 0x0A
    else 0

theorem searchable_threeLines : ∃ dent, threeLines.readDentryByName (pointer [0x61]) = some dent ∧
    Searchable threeLines [0x61] dent ∧
    threeLines.contents dent.inodeNum = [0x78, 0x79, 0x0A, 0x79, 0x0A, 0x78, 0x79, 0x79] := by
  obtain ⟨dent, hdent⟩ : ∃ dent, threeLines.readDentryByName (pointer [0x61]) = some dent := ⟨_, rfl⟩
  refine ⟨dent, hdent, ?_⟩
  cases hdent
  exact ⟨⟨⟨rfl, by decide, by decide, by decide, by decide⟩, by decide, by decide⟩, by decide⟩

/-- The shell looks for `xy` in `a`. -/
theorem reports_lines_threeLines :
    let f := doOneFile [0x78, 0x79] [0x61]
    let st := firstShell threeLines
    let p : OneFile := .opening fun _ => 7
    ∃ ops, Follows f threeLines 1 st p ops ∧ (after f threeLines 1 st p ops).2 = .returned 0 ∧
      printed f threeLines 1 st p ops = literal "a:xy\na:xyy\n" := by
  intro f st p
  obtain ⟨dent, -, hsearch, hcontents⟩ := searchable_threeLines
  have hfree : (fdMap st 1).leastFree = some 2 := by decide
  have hlive : Live st 1 := show _ = true by decide
  have hquiet : Unsignalled st 1 := by decide
  have hst := reachable_firstShell threeLines
  have hs : ∀ c ∈ ([0x78, 0x79] : List (BitVec 8)), c ≠ 0 := by decide
  have hname : ([0x61] : List (BitVec 8)).length < 2 ^ 31 := by decide
  have hstart : Sound threeLines [0x78, 0x79] [0x61] dent.inodeNum (fdMap st 1) 2 (fdMap st 1) p [] :=
    ⟨rfl, by decide, rfl⟩
  obtain ⟨ops, hops, hnone⟩ := (keeps hs hname hsearch hfree 1).ends
    (neverWaits hname hsearch _ 2 1) ⟨hst.inv, hlive, hquiet⟩ (by decide) hstart
  obtain ⟨-, -, hend, -⟩ :=
    reports_lines hst hlive hquiet hs hname hsearch hfree (show (7 : BitVec 8) ≠ nl by decide) hops
  obtain ⟨hreturned, -, hprinted⟩ := hend hnone
  refine ⟨ops, hops, hreturned, hprinted.trans ?_⟩
  rw [hcontents]
  decide

end OneFile

end User
end CoreOS
