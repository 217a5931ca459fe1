import CoreOS.Term.Echo

/-!
# A terminal without echo

With `term_noecho` set, `addch` edits the line and draws nothing.  `delch` does not look at the flag:
it steps back on the screen, writes what follows in the line over what is there, and a blank.  So a
line that is typed without a mistake leaves the screen alone, and every byte that is taken back moves
the cursor one column to the left, over text that has nothing to do with the line.

The line itself does not depend on the flag: two terminals that differ in nothing else, and in what
has been drawn, go through the same lines (`SameLine`).
-/

namespace CoreOS
namespace Term
namespace Console

/-! ## The same line -/

/-- Two terminals with the same line, in the same mode. -/
structure SameLine (c d : Console) : Prop where
  termBuf : d.termBuf = c.termBuf
  termBufCount : d.termBufCount = c.termBufCount
  termCurpos : d.termCurpos = c.termCurpos
  termCanon : d.termCanon = c.termCanon
  reading : d.reading = c.reading

/-- A function that makes the same line of the same line. -/
def Respects (f : Console → Console) : Prop := ∀ {c d}, SameLine c d → SameLine (f c) (f d)

section sameLine

variable {c d e : Console} {f : Console → Console}

theorem SameLine.refl (c : Console) : SameLine c c := ⟨rfl, rfl, rfl, rfl, rfl⟩

theorem SameLine.symm (h : SameLine c d) : SameLine d c :=
  ⟨h.termBuf.symm, h.termBufCount.symm, h.termCurpos.symm, h.termCanon.symm, h.reading.symm⟩

theorem SameLine.trans (h : SameLine c d) (h' : SameLine d e) : SameLine c e :=
  ⟨h'.termBuf.trans h.termBuf, h'.termBufCount.trans h.termBufCount,
    h'.termCurpos.trans h.termCurpos, h'.termCanon.trans h.termCanon, h'.reading.trans h.reading⟩

/-- Drawing leaves the line alone. -/
theorem Draws.sameLine (hf : Draws f) (c : Console) : SameLine c (f c) := by
  rw [hf.eq_withLine c]
  exact ⟨rfl, rfl, rfl, rfl, rfl⟩

theorem sameLine_putRest (c : Console) : SameLine c c.putRest := by
  rw [putRest_eq]
  exact (draws_puts _).sameLine c

/-- A loop of stores whose indices and bytes are read off the line. -/
theorem respects_stores {i : Console → ℕ → ℕ} {b : Console → ℕ → BitVec 8}
    (hi : ∀ {c d}, SameLine c d → i d = i c) (hb : ∀ {c d}, SameLine c d → b d = b c) (l : List ℕ) :
    Respects fun c => l.foldl (fun c j => c.storeTermBuf (i c j) (b c j)) c := by
  intro c d h
  induction l generalizing c d with
  | nil => exact h
  | cons j l ih =>
    refine ih ⟨?_, h.termBufCount, h.termCurpos, h.termCanon, h.reading⟩
    show Function.update d.termBuf (i d j) (b d j) = Function.update c.termBuf (i c j) (b c j)
    rw [h.termBuf, hi h, hb h]

theorem respects_insertCh (b : BitVec 8) : Respects fun c => c.insertCh b := by
  intro c d h
  have hgap : SameLine c.openGap d.openGap := by
    have hloop := respects_stores (i := fun c j => c.termBufCount - j)
      (b := fun c j => c.termBuf (c.termBufCount - j - 1))
      (fun h => by rw [h.termBufCount]) (fun h => by rw [h.termBufCount, h.termBuf])
      (List.range (c.termBufCount - c.termCurpos)) h
    rw [openGap, openGap, h.termBufCount, h.termCurpos]
    exact hloop
  refine ⟨?_, ?_, ?_, hgap.termCanon, hgap.reading⟩
  · show Function.update d.openGap.termBuf d.openGap.termCurpos b = _
    rw [hgap.termBuf, hgap.termCurpos]
    rfl
  · exact congrArg (· + 1) hgap.termBufCount
  · exact congrArg (· + 1) hgap.termCurpos

theorem respects_removeCh : Respects removeCh := by
  intro c d h
  have hgap : SameLine c.closeGap d.closeGap := by
    have hloop := respects_stores (i := fun _ j => j) (b := fun c j => c.termBuf (j + 1))
      (fun _ => rfl) (fun h => by rw [h.termBuf])
      (List.range' (c.termCurpos - 1) (c.termBufCount - 1 - (c.termCurpos - 1))) h
    rw [closeGap, closeGap, h.termBufCount, h.termCurpos]
    exact hloop
  exact ⟨hgap.termBuf, congrArg (· - 1) hgap.termBufCount, congrArg (· - 1) hgap.termCurpos,
    hgap.termCanon, hgap.reading⟩

/-- What `addch` draws, it draws after it has changed the line. -/
theorem sameLine_addch (hcond : c.termBufCount < termBufSize ∧ c.reading = true) (b : BitVec 8) :
    SameLine (c.insertCh b) (c.addch b) := by
  rw [addch, if_pos hcond]
  dsimp only
  split
  · exact SameLine.refl _
  · exact (((draws_putc b).sameLine _).trans (sameLine_putRest _)).trans
      ((draws_back.iterate _).sameLine _)

theorem respects_addch (b : BitVec 8) : Respects fun c => c.addch b := by
  intro c d h
  by_cases hcond : c.termBufCount < termBufSize ∧ c.reading = true
  · have hcond' : d.termBufCount < termBufSize ∧ d.reading = true := by
      rw [h.termBufCount, h.reading]
      exact hcond
    exact ((sameLine_addch hcond b).symm.trans (respects_insertCh b h)).trans
      (sameLine_addch hcond' b)
  · have hcond' : ¬ (d.termBufCount < termBufSize ∧ d.reading = true) := by
      rw [h.termBufCount, h.reading]
      exact hcond
    show SameLine (c.addch b) (d.addch b)
    rw [addch, addch, if_neg hcond, if_neg hcond']
    exact h

/-- So does `delch`. -/
theorem sameLine_delch (hpos : 0 < c.termCurpos) : SameLine c.removeCh c.delch := by
  rw [delch, if_pos hpos]
  dsimp only
  split
  · exact SameLine.refl _
  · exact (((draws_back.sameLine _).trans (sameLine_putRest _)).trans
      ((draws_putc _).sameLine _)).trans ((draws_setpos _ _).sameLine _)

theorem respects_delch : Respects delch := by
  intro c d h
  by_cases hpos : 0 < c.termCurpos
  · have hpos' : 0 < d.termCurpos := h.termCurpos.symm ▸ hpos
    exact ((sameLine_delch hpos).symm.trans (respects_removeCh h)).trans (sameLine_delch hpos')
  · have hpos' : ¬ 0 < d.termCurpos := h.termCurpos.symm ▸ hpos
    rw [delch, delch, if_neg hpos, if_neg hpos']
    exact h

theorem Respects.iterate (hf : Respects f) (n : ℕ) : Respects f^[n] := by
  intro c d h
  induction n generalizing c d with
  | zero => exact h
  | succ n ih => exact ih (hf h)

theorem Respects.whileBefore (hf : Respects f) (p : BitVec 8 → Bool) (n : ℕ) :
    Respects (whileBefore p f n) := by
  intro c d h
  induction n generalizing c d with
  | zero => exact h
  | succ n ih =>
    rw [Console.whileBefore, Console.whileBefore, h.termCurpos, h.termBuf]
    split
    · exact ih (hf h)
    · exact h

theorem Respects.wordBefore (hf : Respects f) : Respects (wordBefore f) := by
  intro c d h
  rw [Console.wordBefore, Console.wordBefore, h.termCurpos, h.termBuf]
  split
  · exact h
  · exact hf.whileBefore _ _ h

end sameLine

/-! ## The same screen -/

/-- The screen and the cursor are as before. -/
structure Unseen (c c' : Console) : Prop where
  screen : c'.screen = c.screen
  curX : c'.curX = c.curX
  curY : c'.curY = c.curY

section unseen

variable {c d e : Console}

theorem Unseen.refl (c : Console) : Unseen c c := ⟨rfl, rfl, rfl⟩

theorem Unseen.trans (h : Unseen c d) (h' : Unseen d e) : Unseen c e :=
  ⟨h'.screen.trans h.screen, h'.curX.trans h.curX, h'.curY.trans h.curY⟩

/-- A loop of stores changes the array and nothing else. -/
theorem stores_eq (i : Console → ℕ → ℕ) (b : Console → ℕ → BitVec 8) (l : List ℕ) (c : Console) :
    ∃ buf oob, l.foldl (fun c j => c.storeTermBuf (i c j) (b c j)) c =
      { c with termBuf := buf, oob := oob } := by
  induction l generalizing c with
  | nil => exact ⟨c.termBuf, c.oob, rfl⟩
  | cons j l ih =>
    obtain ⟨buf, oob, hl⟩ := ih (c.storeTermBuf (i c j) (b c j))
    exact ⟨buf, oob, hl⟩

theorem insertCh_stores (c : Console) (b : BitVec 8) : ∃ buf oob, c.insertCh b =
    { c with
      termBuf := buf
      termCurpos := c.termCurpos + 1
      termBufCount := c.termBufCount + 1
      oob := oob } := by
  obtain ⟨buf, oob, hgap⟩ : ∃ buf oob, c.openGap = { c with termBuf := buf, oob := oob } :=
    stores_eq (fun c j => c.termBufCount - j) (fun c j => c.termBuf (c.termBufCount - j - 1)) _ c
  rw [insertCh, hgap]
  exact ⟨_, _, rfl⟩

theorem removeCh_stores (c : Console) : ∃ buf oob, c.removeCh =
    { c with
      termBuf := buf
      termCurpos := c.termCurpos - 1
      termBufCount := c.termBufCount - 1
      oob := oob } := by
  obtain ⟨buf, oob, hgap⟩ : ∃ buf oob, c.closeGap = { c with termBuf := buf, oob := oob } :=
    stores_eq (fun _ j => j) (fun c j => c.termBuf (j + 1)) _ c
  rw [removeCh, hgap]
  exact ⟨_, _, rfl⟩

/-- **Without echo a byte goes into the line, and nothing is drawn.** -/
theorem unseen_addch (h : c.termNoecho = true) (b : BitVec 8) :
    Unseen c (c.addch b) ∧ (c.addch b).termNoecho = true := by
  obtain ⟨buf, oob, hinsert⟩ := insertCh_stores c b
  rw [addch]
  split
  · dsimp only
    rw [hinsert, if_pos h]
    exact ⟨⟨rfl, rfl, rfl⟩, h⟩
  · exact ⟨Unseen.refl c, h⟩

end unseen

/-! ## Taking back -/

section erase

variable {c : Console}

/-- The column of the cursor, if it is on the screen, after one step to the left. -/
theorem curX_back (hx : 0 ≤ c.curX ∧ c.curX < 80) : c.back.curX = (c.curX - 1) % 80 := by
  rw [back]
  dsimp only
  split
  · show clamp numCols (c.curX - 1 + numCols) = _
    rw [clamp_of_mem (by rw [numCols]; omega) (by rw [numCols]; omega), numCols]
    omega
  · show clamp numCols (c.curX - 1) = _
    rw [clamp_of_mem (by omega) (by rw [numCols]; omega)]
    omega

/-- **A byte is taken back**: with echo or without, the cursor moves to the left. -/
theorem curX_delch (hcanon : c.termCanon = false) (hpos : 0 < c.termCurpos)
    (hx : 0 ≤ c.curX ∧ c.curX < 80) : c.delch.curX = (c.curX - 1) % 80 := by
  obtain ⟨buf, oob, hremove⟩ := removeCh_stores c
  have hcurX : c.removeCh.curX = c.curX := by rw [hremove]
  have hmode : c.removeCh.termCanon = false := by
    rw [hremove]
    exact hcanon
  have hback : c.removeCh.back.curX = (c.curX - 1) % 80 := by
    rw [curX_back (by rw [hcurX]; exact hx), hcurX]
  rw [delch, if_pos hpos]
  dsimp only
  rw [hmode, if_neg Bool.noConfusion]
  show clamp numCols c.removeCh.back.curX = _
  rw [hback, clamp_of_mem (by omega) (by rw [numCols]; omega)]

/-- The mode stays, and the cursor of the line is one further to the left. -/
theorem modes_delch (hpos : 0 < c.termCurpos) :
    c.delch.termCanon = c.termCanon ∧ c.delch.termCurpos = c.termCurpos - 1 := by
  have hline := sameLine_delch hpos
  obtain ⟨buf, oob, hremove⟩ := removeCh_stores c
  rw [hremove] at hline
  exact ⟨hline.termCanon, hline.termCurpos⟩

/-- Several bytes. -/
theorem curX_delch_iterate (n : ℕ) (hcanon : c.termCanon = false) (hn : n ≤ c.termCurpos)
    (hx : 0 ≤ c.curX ∧ c.curX < 80) : (delch^[n] c).curX = (c.curX - n) % 80 := by
  induction n generalizing c with
  | zero =>
    rw [Function.iterate_zero, id, Int.natCast_zero, Int.sub_zero, Int.emod_eq_of_lt hx.1 hx.2]
  | succ n ih =>
    have hpos : 0 < c.termCurpos := by omega
    obtain ⟨hmode, hcurpos⟩ := modes_delch hpos
    have hcol := curX_delch hcanon hpos hx
    rw [Function.iterate_succ_apply, ih (hmode.trans hcanon) (by omega) (by rw [hcol]; omega), hcol]
    omega

/-- A loop to the left is a number of rounds: one at least, if it is entered. -/
theorem whileBefore_rounds (p : BitVec 8 → Bool) (f : Console → Console) (n : ℕ) (c : Console) :
    ∃ m ≤ n, whileBefore p f n c = f^[m] c ∧
      (0 < n → 0 < c.termCurpos ∧ p (c.termBuf (c.termCurpos - 1)) = true → 0 < m) := by
  induction n generalizing c with
  | zero => exact ⟨0, Nat.le_refl 0, rfl, fun h => absurd h (Nat.lt_irrefl 0)⟩
  | succ n ih =>
    rw [whileBefore]
    split
    · obtain ⟨m, hm, hrounds, -⟩ := ih (f c)
      exact ⟨m + 1, Nat.succ_le_succ hm, hrounds, fun _ _ => Nat.succ_pos m⟩
    · rename_i hstop
      exact ⟨0, Nat.zero_le _, rfl, fun _ henter => absurd henter hstop⟩

/-! ## The keys -/

/-- A key that takes bytes back: C-w, C-u, C-h or Backspace. -/
def erases (k : Key) : Prop :=
  k.modifiers = modCtrl ∧ (k.key = ch 'w' ∨ k.key = ch 'u' ∨ k.key = ch 'h') ∨
    k.modifiers ≠ modCtrl ∧ k.modifiers ≠ modAlt ∧ k.key = keyBack

instance (k : Key) : Decidable (erases k) := inferInstanceAs (Decidable (_ ∨ _))

/-- What such a key does. -/
def eraser (k : Key) : Console → Console :=
  if k.modifiers = modCtrl ∧ k.key = ch 'w' then wordBefore delch
  else if k.modifiers = modCtrl ∧ k.key = ch 'u' then fun c => delch^[c.termCurpos] c
  else delch

theorem handleKey_of_erases (hcanon : c.termCanon = false) {k : Key} (hk : erases k) :
    c.handleKey k = eraser k c := by
  rw [handleKey, if_neg (by rw [hcanon]; exact Bool.noConfusion), lineKey, eraser]
  rcases hk with ⟨hmod, hkey⟩ | ⟨hctrl, halt, hkey⟩
  · rw [if_pos hmod]
    rcases hkey with hkey | hkey | hkey <;> rw [hmod, hkey] <;> rfl
  · rw [if_neg hctrl, if_neg halt, if_neg (by rw [hkey]; decide), if_pos hkey,
      if_neg fun h => hctrl h.1, if_neg fun h => hctrl h.1]
    rfl

/-- **It takes bytes back** one by one, at least one if there are any before the cursor. -/
theorem eraser_rounds (k : Key) (c : Console) :
    ∃ n ≤ c.termCurpos, eraser k c = delch^[n] c ∧ (0 < c.termCurpos → 0 < n) := by
  have hone : ∃ n ≤ c.termCurpos, c.delch = delch^[n] c ∧ (0 < c.termCurpos → 0 < n) := by
    by_cases hpos : 0 < c.termCurpos
    · exact ⟨1, hpos, rfl, fun _ => Nat.one_pos⟩
    · exact ⟨0, Nat.zero_le _, if_neg hpos, fun h => absurd h hpos⟩
  have hword : ∃ n ≤ c.termCurpos, wordBefore delch c = delch^[n] c ∧
      (0 < c.termCurpos → 0 < n) := by
    rw [wordBefore]
    by_cases hpos : c.termCurpos = 0
    · rw [if_pos hpos]
      exact ⟨0, Nat.zero_le _, rfl, fun h => absurd hpos (Nat.ne_of_gt h)⟩
    · obtain ⟨m, hm, hrounds, hfirst⟩ :=
        whileBefore_rounds (sameKind (c.termBuf (c.termCurpos - 1))) delch c.termCurpos c
      rw [if_neg hpos]
      exact ⟨m, hm, hrounds, fun h => hfirst h ⟨h, beq_self_eq_true _⟩⟩
  rw [eraser]
  split_ifs
  · exact hword
  · exact ⟨c.termCurpos, Nat.le_refl _, rfl, id⟩
  · exact hone

theorem respects_eraser (k : Key) : Respects (eraser k) := by
  intro c d h
  rw [eraser]
  split_ifs
  · exact respects_delch.wordBefore h
  · show SameLine (delch^[c.termCurpos] c) (delch^[d.termCurpos] d)
    rw [h.termCurpos]
    exact respects_delch.iterate _ h
  · exact respects_delch h

/-- A key that adds a byte to the line or takes bytes back. -/
def Edit (k : Key) : Prop := inserts k ∨ erases k

theorem switchKey_of_edit {k : Key} (hk : Edit k) : System.switchKey k = none := by
  have halt : k.modifiers ≠ modAlt := by
    rcases hk with hk | ⟨hmod, -⟩ | ⟨-, halt, -⟩
    · exact hk.2.1
    · rw [hmod]
      decide
    · exact halt
  exact if_neg fun h => halt h.1

theorem handleKey_eq_addch (hcanon : c.termCanon = false) {k : Key} (hk : inserts k) :
    c.handleKey k = c.addch k.key := by
  rw [handleKey, if_neg (by rw [hcanon]; exact Bool.noConfusion), lineKey_of_inserts hk]

theorem termCanon_delch_iterate (n : ℕ) (c : Console) : (delch^[n] c).termCanon = c.termCanon := by
  have hone : ∀ c : Console, c.delch.termCanon = c.termCanon := by
    intro c
    by_cases hpos : 0 < c.termCurpos
    · exact (modes_delch hpos).1
    · rw [delch, if_neg hpos]
  induction n generalizing c with
  | zero => rfl
  | succ n ih => exact (ih c.delch).trans (hone c)

theorem termCanon_addch (c : Console) (b : BitVec 8) : (c.addch b).termCanon = c.termCanon := by
  by_cases hcond : c.termBufCount < termBufSize ∧ c.reading = true
  · obtain ⟨buf, oob, hinsert⟩ := insertCh_stores c b
    have hline := sameLine_addch hcond b
    rw [hinsert] at hline
    exact hline.termCanon
  · rw [addch, if_neg hcond]

/-- **One key** does the same to the same line, and leaves the terminal in line mode. -/
theorem SameLine.handleKey {d : Console} (h : SameLine c d) (hcanon : c.termCanon = false) {k : Key}
    (hk : Edit k) :
    SameLine (c.handleKey k) (d.handleKey k) ∧ (c.handleKey k).termCanon = false := by
  have hcanon' : d.termCanon = false := h.termCanon.trans hcanon
  rcases hk with hk | hk
  · rw [handleKey_eq_addch hcanon hk, handleKey_eq_addch hcanon' hk, termCanon_addch]
    exact ⟨respects_addch k.key h, hcanon⟩
  · rw [handleKey_of_erases hcanon hk, handleKey_of_erases hcanon' hk]
    obtain ⟨n, -, hrounds, -⟩ := eraser_rounds k c
    refine ⟨respects_eraser k h, ?_⟩
    rw [hrounds, termCanon_delch_iterate]
    exact hcanon

/-- **One key without echo** draws nothing, unless it takes something back. -/
theorem unseen_handleKey (hcanon : c.termCanon = false) (hnoecho : c.termNoecho = true) {k : Key}
    (hk : Edit k) (hquiet : erases k → c.termCurpos = 0) :
    Unseen c (c.handleKey k) ∧ (c.handleKey k).termNoecho = true := by
  rcases hk with hk | hk
  · rw [handleKey_eq_addch hcanon hk]
    exact unseen_addch hnoecho k.key
  · obtain ⟨n, hn, hrounds, -⟩ := eraser_rounds k c
    obtain rfl : n = 0 := by
      rw [hquiet hk] at hn
      exact Nat.eq_zero_of_le_zero hn
    rw [handleKey_of_erases hcanon hk, hrounds]
    exact ⟨Unseen.refl c, hnoecho⟩

/-- A key that takes back fewer bytes than a row has columns leaves the cursor in another column. -/
theorem curX_handleKey_ne (hcanon : c.termCanon = false) (hx : 0 ≤ c.curX ∧ c.curX < 80) {k : Key}
    (hk : erases k) (hpos : 0 < c.termCurpos) (hlt : c.termCurpos < 80) :
    (c.handleKey k).curX ≠ c.curX := by
  obtain ⟨n, hn, hrounds, hfirst⟩ := eraser_rounds k c
  have hn' := hfirst hpos
  rw [handleKey_of_erases hcanon hk, hrounds, curX_delch_iterate n hcanon hn hx]
  omega

end erase

end Console

open Console

/-! ## The handler -/

section run

/-- The same system with echo on terminal `t`. -/
def System.echoing (s : System) (t : Fin termNum) : System :=
  { s with data := Function.update s.data t { s.data t with termNoecho := false } }

/-- The terminal on display takes nothing back: the key adds to the line, or there is nothing before
the cursor. -/
def TakesNothingBack (s : System) (k : Key) : Prop :=
  erases k → (s.data s.curTermInd).termCurpos = 0

/-- **What no-echo mode is for.**  After every key the screen and the cursor of the terminal on display
are as they were at first, and its line is the one that the same keys make with echo. -/
def EditsUnseen (s : System) (ks : List Key) : Prop :=
  ∀ ks', ks' <+: ks →
    Unseen (s.load s.curTermInd) ((Runs.run System.termKeyHandler s ks').load s.curTermInd) ∧
      SameLine ((Runs.run System.termKeyHandler (s.echoing s.curTermInd) ks').load s.curTermInd)
        ((Runs.run System.termKeyHandler s ks').load s.curTermInd)

variable {t : Fin termNum} {s e : System} {k : Key} {ks : List Key}

/-- Two systems with the same line on terminal `t`, which both have on display. -/
structure Lockstep (t : Fin termNum) (s e : System) : Prop where
  displayed : s.curTermInd = t
  displayed' : e.curTermInd = t
  termCanon : (s.load t).termCanon = false
  line : SameLine (s.load t) (e.load t)

theorem Lockstep.step (h : Lockstep t s e) (hk : Edit k) :
    Lockstep t (s.termKeyHandler k) (e.termKeyHandler k) := by
  have hswitch := switchKey_of_edit hk
  obtain ⟨hline, hcanon⟩ := h.line.handleKey h.termCanon hk
  have hload : (s.termKeyHandler k).load t = ((s.load t).handleKey k).fresh := by
    rw [← h.displayed]
    exact s.load_termKeyHandler hswitch
  have hload' : (e.termKeyHandler k).load t = ((e.load t).handleKey k).fresh := by
    rw [← h.displayed']
    exact e.load_termKeyHandler hswitch
  refine ⟨(s.data_termKeyHandler hswitch).2.trans h.displayed,
    (e.data_termKeyHandler hswitch).2.trans h.displayed', ?_, ?_⟩
  · rw [hload]
    exact hcanon
  · rw [hload, hload']
    exact ⟨hline.termBuf, hline.termBufCount, hline.termCurpos, hline.termCanon, hline.reading⟩

theorem Lockstep.run (h : Lockstep t s e) (hks : ∀ k ∈ ks, Edit k) :
    Lockstep t (Runs.run System.termKeyHandler s ks) (Runs.run System.termKeyHandler e ks) := by
  induction ks generalizing s e with
  | nil => exact h
  | cons k ks ih =>
    exact ih (h.step (hks k List.mem_cons_self)) fun k' hk' => hks k' (List.mem_cons_of_mem k hk')

/-- Terminal `t` is on display, in line mode without echo, and looks like `c`. -/
structure Still (t : Fin termNum) (c : Console) (s : System) : Prop where
  displayed : s.curTermInd = t
  termCanon : (s.load t).termCanon = false
  termNoecho : (s.load t).termNoecho = true
  unseen : Unseen c (s.load t)

theorem Still.step {c : Console} (h : Still t c s) (hk : Edit k) (hquiet : TakesNothingBack s k) :
    Still t c (s.termKeyHandler k) := by
  have hswitch := switchKey_of_edit hk
  have hcanon := ((SameLine.refl (s.load t)).handleKey h.termCanon hk).2
  obtain ⟨hunseen, hnoecho⟩ := unseen_handleKey h.termCanon h.termNoecho hk (by
    rw [← h.displayed]
    exact hquiet)
  have hload : (s.termKeyHandler k).load t = ((s.load t).handleKey k).fresh := by
    rw [← h.displayed]
    exact s.load_termKeyHandler hswitch
  refine ⟨(s.data_termKeyHandler hswitch).2.trans h.displayed, ?_, ?_, ?_⟩
  · rw [hload]
    exact hcanon
  · rw [hload]
    exact hnoecho
  · rw [hload]
    exact h.unseen.trans ⟨hunseen.screen, hunseen.curX, hunseen.curY⟩

/-- If the cursor is to stay, only a key that takes back a whole row or more can take anything back. -/
theorem takesBack_of_unseen {c : Console} (hx : 0 ≤ c.curX ∧ c.curX < 80) (hcur : s.curTermInd = t)
    (hcanon : (s.load t).termCanon = false) (hks : ∀ k ∈ ks, Edit k)
    (h : Runs.Always System.termKeyHandler (fun s' => Unseen c (s'.load t)) s ks) :
    Runs.Meets System.termKeyHandler (fun s k => erases k →
      (s.data s.curTermInd).termCurpos = 0 ∨ 80 ≤ (s.data s.curTermInd).termCurpos) s ks := by
  induction ks generalizing s with
  | nil => trivial
  | cons k ks ih =>
    have hk := hks k List.mem_cons_self
    have hswitch := switchKey_of_edit hk
    obtain ⟨hseen, hrest⟩ := (Runs.always_cons s k ks).mp h
    have hseen' : Unseen c ((s.termKeyHandler k).load t) := hrest [] List.nil_prefix
    have hload : (s.termKeyHandler k).load t = ((s.load t).handleKey k).fresh := by
      rw [← hcur]
      exact s.load_termKeyHandler hswitch
    refine ⟨fun herases => ?_, ih ((s.data_termKeyHandler hswitch).2.trans hcur) ?_
      (fun k' hk' => hks k' (List.mem_cons_of_mem k hk')) hrest⟩
    · by_contra hnot
      rw [hcur] at hnot
      have hne := curX_handleKey_ne (c := s.load t) hcanon (by rw [hseen.curX]; exact hx) herases
        (Nat.pos_of_ne_zero fun h0 => hnot (Or.inl h0)) (Nat.lt_of_not_le fun h80 => hnot (Or.inr h80))
      rw [hload] at hseen'
      exact hne (hseen'.curX.trans hseen.curX.symm)
    · rw [hload]
      exact ((SameLine.refl (s.load t)).handleKey hcanon hk).2

/-- **No-echo mode.**  The terminal on display is in line mode with echo off.  Over every sequence of
ordinary keys, C-w, C-u, C-h and Backspace its line is the same as with echo.  If no key takes anything
back, the screen and the cursor stay as they are all along; and if they stay all along, then whenever a
key takes something back there is a whole row or more before the cursor. -/
theorem editsUnseen_of_takesNothingBack (s : System)
    (hcanon : (s.data s.curTermInd).termCanon = false)
    (hnoecho : (s.data s.curTermInd).termNoecho = true) (ks : List Key) (hks : ∀ k ∈ ks, Edit k) :
    (Runs.Meets System.termKeyHandler TakesNothingBack s ks → EditsUnseen s ks) ∧
      (0 ≤ (s.data s.curTermInd).curX ∧ (s.data s.curTermInd).curX < 80 → EditsUnseen s ks →
        Runs.Meets System.termKeyHandler (fun s k => erases k →
          (s.data s.curTermInd).termCurpos = 0 ∨ 80 ≤ (s.data s.curTermInd).termCurpos) s ks) := by
  have hload : (s.echoing s.curTermInd).load s.curTermInd =
      { s.load s.curTermInd with termNoecho := false } := by
    simp only [System.echoing, System.load, Function.update_self]
  have hlock : Lockstep s.curTermInd (s.echoing s.curTermInd) s := by
    refine ⟨rfl, rfl, ?_, ?_⟩
    · rw [hload]
      exact hcanon
    · rw [hload]
      exact ⟨rfl, rfl, rfl, rfl, rfl⟩
  have hstill : Still s.curTermInd (s.load s.curTermInd) s := ⟨rfl, hcanon, hnoecho, Unseen.refl _⟩
  constructor
  · intro hquiet ks' hpre
    have hks' : ∀ k ∈ ks', Edit k := fun k hk => hks k (hpre.subset hk)
    have hedits : Runs.Meets System.termKeyHandler (fun s k => Edit k ∧ TakesNothingBack s k) s ks :=
      (Runs.meets_of_forall (fun k hk _ => hks k hk) s).and hquiet
    have hlast := Runs.always_of_meets (fun s k hs hk => Still.step hs hk.1 hk.2) hstill hedits ks' hpre
    exact ⟨hlast.unseen, (hlock.run hks').line⟩
  · intro hx hunseen
    exact takesBack_of_unseen hx rfl hcanon hks fun ks' hpre => (hunseen ks' hpre).1

/-- Two letters, with a Backspace at the beginning of the line before them. -/
theorem editsUnseen_two_letters :
    let s : System := { System.unclearedTerms (fun _ _ => 0) fun _ => 0 with
      data := fun _ => { System.initData with termNoecho := true, reading := true } }
    EditsUnseen s [⟨0, keyBack⟩, ⟨0, ch 'a'⟩, ⟨0, ch 'b'⟩] := by
  intro s
  refine (editsUnseen_of_takesNothingBack s rfl rfl _ ?_).1 ?_
  · intro k hk
    simp only [List.mem_cons, List.not_mem_nil, or_false] at hk
    rcases hk with rfl | rfl | rfl
    · exact Or.inr (by decide)
    · exact Or.inl (by decide)
    · exact Or.inl (by decide)
  · refine ⟨fun _ => rfl, fun h => absurd h (by decide), fun h => absurd h (by decide), trivial⟩

/-- A letter behind a prompt, and a Backspace: the cursor is in the prompt then. -/
theorem not_editsUnseen :
    let s : System := { System.unclearedTerms (fun _ _ => 0) fun _ => 0 with
      data := fun _ => { System.initData with curX := 10, termNoecho := true, reading := true } }
    (∀ k ∈ ([⟨0, ch 'a'⟩, ⟨0, keyBack⟩] : List Key), Edit k) ∧
      ¬ EditsUnseen s [⟨0, ch 'a'⟩, ⟨0, keyBack⟩] := by
  intro s
  constructor
  · intro k hk
    simp only [List.mem_cons, List.not_mem_nil, or_false] at hk
    rcases hk with rfl | rfl
    · exact Or.inl (by decide)
    · exact Or.inr (by decide)
  · intro h
    have hcurX := (h _ (List.prefix_refl _)).1.curX
    exact absurd hcurX (by decide +kernel)

end run

end Term
end CoreOS
