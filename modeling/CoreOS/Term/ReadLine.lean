import CoreOS.Term.LineEditor

/-!
# A line is read as it was typed

`term_read` sets `reading`, waits for `term_read_done`, and takes what is in the line then.  Key
interrupts come at any time: before a read has begun, while it waits, and after Enter before the
waiting process is scheduled again.  The line a read is for is the one typed between its beginning and
the next Enter.

What that line is does not depend on how the handler keeps it.  `Phase` follows a terminal from
outside: no read is pending, one is pending and this has been typed so far, or Enter has been handled
and the reader has yet to resume.  `Follows` relates it to the record.

The handler does not keep to this always.  Enter sets `term_read_done` whether a read is pending or
not, so the next read returns at once, and while the reader has yet to resume keys still go into the
line, since `addch` looks at `reading` only.  `Orderly` excludes these two.
-/

namespace CoreOS
namespace Term

open Console Zipper

/-! ## Reads, from outside -/

/-- Where a terminal is with its reads. -/
inductive Phase where
  /-- No read is pending. -/
  | idle
  /-- A read is pending, and this is the line so far. -/
  | typing (z : Zipper (BitVec 8))
  /-- Enter has ended this line, and the reader has yet to resume. -/
  | entered (l : List (BitVec 8))
  deriving DecidableEq

/-- A key typed on the terminal. -/
def Phase.key (k : Key) : Phase → Phase
  | .idle => .idle
  | .typing z => if isEnter k then .entered z.text else .typing (editKey k z)
  | .entered l => .entered l

/-- The terminals of the kernel, and one of them followed from outside. -/
structure Watch where
  sys : System
  phase : Phase

/-- A key is handled by the editor of terminal `t`. -/
def GoesTo (s : System) (t : Fin termNum) (k : Key) : Prop :=
  System.switchKey k = none ∧ s.curTermInd = t

instance (s : System) (t : Fin termNum) (k : Key) : Decidable (GoesTo s t k) :=
  inferInstanceAs (Decidable (_ ∧ _))

namespace Watch

variable (t : Fin termNum)

/-- The phase of terminal `t` after an operation. -/
def nextPhase (w : Watch) : Op → Phase
  | .key k => if GoesTo w.sys t k then w.phase.key k else w.phase
  | .readStart u => if u = t then .typing Zipper.empty else w.phase
  | .readEnd u canon nbytes =>
    if u = t ∧ (System.readResult canon nbytes (w.sys.load t)).isSome then .idle else w.phase
  | _ => w.phase

/-- One operation. -/
def step (w : Watch) (o : Op) : Watch := ⟨Term.step w.sys o, w.nextPhase t o⟩

/-- The operations on terminal `t` are keys and the two ends of reads in line mode, one read at a time
and each with room for the longest line.  The other terminals may do anything. -/
def Reads (w : Watch) : Op → Prop
  | .write u _ => u ≠ t
  | .readStart u => u = t → w.phase = .idle
  | .readEnd u canon nbytes => u = t → w.phase ≠ .idle ∧ canon = false ∧ termBufSize < nbytes
  | _ => True

/-- What is asked of the keys: Enter comes while a read is pending, and once it has come no key that
changes the text of the line does, until the reader has resumed. -/
def Orderly (w : Watch) : Op → Prop
  | .key k => GoesTo w.sys t k →
      (isEnter k → (w.sys.data t).reading = true) ∧
        ((w.sys.data t).termReadDone = true →
          (editKey k (w.sys.data t).line).text = (w.sys.data t).line.text)
  | _ => True

instance (w : Watch) : (o : Op) → Decidable (w.Reads t o)
  | .write _ _ => inferInstanceAs (Decidable (_ ≠ _))
  | .readStart _ => inferInstanceAs (Decidable (_ → _))
  | .readEnd _ _ _ => inferInstanceAs (Decidable (_ → _))
  | .key _ => inferInstanceAs (Decidable True)
  | .switchTerm _ => inferInstanceAs (Decidable True)

instance (w : Watch) : (o : Op) → Decidable (w.Orderly t o)
  | .key _ => inferInstanceAs (Decidable (_ → _))
  | .write _ _ => inferInstanceAs (Decidable True)
  | .readStart _ => inferInstanceAs (Decidable True)
  | .readEnd _ _ _ => inferInstanceAs (Decidable True)
  | .switchTerm _ => inferInstanceAs (Decidable True)

/-- A read that returns delivers the line that was typed for it. -/
def Delivers (w : Watch) : Op → Prop
  | .readEnd u canon nbytes => u = t →
      ∀ r, System.readResult canon nbytes (w.sys.load t) = some r →
        ∃ l, w.phase = .entered l ∧ r.1 = l ++ [ch '\n']
  | _ => True

end Watch

/-! ## The record -/

/-- A phase, as a record shows it. -/
def Phase.At (d : Data) : Phase → Prop
  | .idle => d.reading = false ∧ d.termReadDone = false ∧ d.termBufCount = 0 ∧ d.termCurpos = 0
  | .typing z => d.reading = true ∧ d.termReadDone = false ∧ d.Represents z
  | .entered l => d.reading = true ∧ d.termReadDone = true ∧ ∃ z, d.Represents z ∧ z.text = l

/-- The record of a terminal in line mode, in a phase. -/
structure Follows (d : Data) (p : Phase) : Prop where
  termCanon : d.termCanon = false
  phase : p.At d

/-- Where the cursor is does not matter. -/
theorem Follows.congr {d d' : Data} {p : Phase} (h : Follows d p) (hd : d'.undrawn = d.undrawn) :
    Follows d' p := by
  have hreading : d'.reading = d.reading := congrArg (·.reading) hd
  have hdone : d'.termReadDone = d.termReadDone := congrArg (·.termReadDone) hd
  have hbuf : d'.termBuf = d.termBuf := congrArg (·.termBuf) hd
  have hcount : d'.termBufCount = d.termBufCount := congrArg (·.termBufCount) hd
  have hcurpos : d'.termCurpos = d.termCurpos := congrArg (·.termCurpos) hd
  have hcanon : d'.termCanon = d.termCanon := congrArg (·.termCanon) hd
  refine ⟨hcanon.trans h.termCanon, ?_⟩
  have hphase := h.phase
  cases p with
  | idle =>
    rw [Phase.At, hreading, hdone, hcount, hcurpos]
    exact hphase
  | typing z =>
    rw [Phase.At, hreading, hdone]
    exact ⟨hphase.1, hphase.2.1, hphase.2.2.congr hbuf hcount hcurpos⟩
  | entered l =>
    rw [Phase.At, hreading, hdone]
    obtain ⟨h₁, h₂, z, hz, hl⟩ := hphase
    exact ⟨h₁, h₂, z, hz.congr hbuf hcount hcurpos, hl⟩

section console

variable {c : Console} {k : Key}

/-- On an empty line the keys with Ctrl do nothing. -/
theorem editCtrl_empty (key : BitVec 8) : editCtrl key Zipper.empty = Zipper.empty := by
  unfold editCtrl
  refine iteInduction (motive := (· = Zipper.empty)) (fun _ => rfl) fun _ => ?_
  refine iteInduction (motive := (· = Zipper.empty)) (fun _ => rfl) fun _ => ?_
  refine iteInduction (motive := (· = Zipper.empty)) (fun _ => rfl) fun _ => ?_
  refine iteInduction (motive := (· = Zipper.empty)) (fun _ => rfl) fun _ => ?_
  refine iteInduction (motive := (· = Zipper.empty)) (fun _ => rfl) fun _ => ?_
  refine iteInduction (motive := (· = Zipper.empty)) (fun _ => rfl) fun _ => ?_
  exact iteInduction (motive := (· = Zipper.empty)) (fun _ => rfl) fun _ => rfl

/-- Nor do those with Alt. -/
theorem editAlt_empty (key : BitVec 8) : editAlt key Zipper.empty = Zipper.empty := by
  unfold editAlt
  refine iteInduction (motive := (· = Zipper.empty)) (fun _ => rfl) fun _ => ?_
  exact iteInduction (motive := (· = Zipper.empty)) (fun _ => rfl) fun _ => rfl

/-- Without a pending read a key cannot put anything into an empty line. -/
theorem editKey_empty (hk : ¬ inserts k) : editKey k Zipper.empty = Zipper.empty := by
  unfold editKey
  refine iteInduction (motive := (· = Zipper.empty)) (fun _ => editCtrl_empty k.key) fun hctrl => ?_
  refine iteInduction (motive := (· = Zipper.empty)) (fun _ => editAlt_empty k.key) fun halt => ?_
  refine iteInduction (motive := (· = Zipper.empty)) (fun _ => rfl) fun henter => ?_
  refine iteInduction (motive := (· = Zipper.empty)) (fun _ => rfl) fun hback => ?_
  refine iteInduction (motive := (· = Zipper.empty)) (fun _ => rfl) fun hleft => ?_
  refine iteInduction (motive := (· = Zipper.empty)) (fun _ => rfl) fun hright => ?_
  exact iteInduction (motive := (· = Zipper.empty)) (fun _ => rfl) fun hfkey =>
    absurd ⟨hctrl, halt, henter, hback, hleft, hright, hfkey⟩ hk

/-- A key that puts a byte in does nothing while no read is pending. -/
theorem handleKey_of_inserts (hcanon : c.termCanon = false) (hreading : c.reading = false)
    (hk : inserts k) : c.handleKey k = c := by
  have hdeaf : ¬ (c.termBufCount < termBufSize ∧ c.reading = true) := by
    rw [hreading]
    exact fun hcond => Bool.noConfusion hcond.2
  rw [handleKey, if_neg (by rw [hcanon]; exact Bool.noConfusion), lineKey_of_inserts hk, addch,
    if_neg hdeaf]

/-- What the editor leaves alone. -/
theorem Follows.modes {z : Zipper (BitVec 8)} (h : Edits (fun c => c.handleKey k) c z) :
    (c.handleKey k).termCanon = c.termCanon ∧ (c.handleKey k).reading = c.reading ∧
      (c.handleKey k).termReadDone = c.termReadDone :=
  ⟨congrArg (·.termCanon) h.settings, congrArg (·.reading) h.settings,
    congrArg (·.termReadDone) h.settings⟩

/-- A key while no read is pending, other than Enter. -/
theorem follows_idle_handleKey (h : Follows c.toData .idle) (hk : ¬ isEnter k) :
    Follows (c.handleKey k).toData .idle := by
  obtain ⟨hreading, hdone, hcount, hcurpos⟩ := h.phase
  have hin : c.InLine := by
    refine ⟨?_, ?_⟩
    · rw [hcurpos]
      exact Nat.zero_le _
    · rw [hcount]
      exact Nat.zero_le _
  by_cases hins : inserts k
  · rw [handleKey_of_inserts h.termCanon hreading hins]
    exact h
  · have hedits := edits_lineKey hin h.termCanon hk fun hins' => absurd hins' hins
    have hempty : c.line = Zipper.empty := by
      rw [Data.line, hcount, hcurpos]
      rfl
    rw [hempty, editKey_empty hins] at hedits
    obtain ⟨hcanon', hreading', hdone'⟩ := Follows.modes hedits
    refine ⟨hcanon'.trans h.termCanon, hreading'.trans hreading, hdone'.trans hdone, ?_, ?_⟩
    · rw [← hedits.inLine.length_text, hedits.line]
      rfl
    · rw [← Data.length_left, hedits.line]
      rfl

/-- **A key**, in any phase. -/
theorem Follows.handleKey {p : Phase} (h : Follows c.toData p)
    (henter : isEnter k → c.reading = true)
    (hkeep : c.termReadDone = true → (editKey k c.line).text = c.line.text) :
    Follows (c.handleKey k).toData (p.key k) := by
  by_cases hk : isEnter k
  · rw [handleKey_of_isEnter h.termCanon hk]
    refine ⟨h.termCanon, ?_⟩
    cases p with
    | idle => exact absurd (h.phase.1.symm.trans (henter hk)) Bool.noConfusion
    | typing z =>
      rw [Phase.key, if_pos hk]
      exact ⟨h.phase.1, rfl, z, h.phase.2.2.congr rfl rfl rfl, rfl⟩
    | entered l =>
      obtain ⟨hreading, -, z, hz, hl⟩ := h.phase
      exact ⟨hreading, rfl, z, hz.congr rfl rfl rfl, hl⟩
  · cases p with
    | idle => exact follows_idle_handleKey h hk
    | typing z =>
      obtain ⟨hreading, hdone, hz⟩ := h.phase
      obtain ⟨hin, rfl⟩ := Data.represents_iff.mp hz
      have hedits := edits_handleKey hin h.termCanon hreading hk
      obtain ⟨hcanon', hreading', hdone'⟩ := Follows.modes hedits
      rw [Phase.key, if_neg hk]
      exact ⟨hcanon'.trans h.termCanon, hreading'.trans hreading, hdone'.trans hdone,
        Data.represents_iff.mpr ⟨hedits.inLine, hedits.line⟩⟩
    | entered l =>
      obtain ⟨hreading, hdone, z, hz, hl⟩ := h.phase
      obtain ⟨hin, rfl⟩ := Data.represents_iff.mp hz
      have hedits := edits_handleKey hin h.termCanon hreading hk
      obtain ⟨hcanon', hreading', hdone'⟩ := Follows.modes hedits
      exact ⟨hcanon'.trans h.termCanon, hreading'.trans hreading, hdone'.trans hdone,
        editKey k c.line, Data.represents_iff.mpr ⟨hedits.inLine, hedits.line⟩,
        (hkeep hdone).trans hl⟩

/-- The end of the line in the array. -/
theorem endLine_eq (c : Console) : c.endLine.termBuf =
      Function.update c.termBuf c.termBufCount (ch '\n') ∧
    c.endLine.termBufCount = c.termBufCount + 1 ∧ c.endLine.reading = false ∧
    c.endLine.termCanon = c.termCanon := by
  rw [endLine]
  dsimp only
  split
  · exact ⟨rfl, rfl, rfl, rfl⟩
  · have hputc := (draws_putc (ch '\n')).eq_withLine { c with reading := false }
    rw [hputc]
    exact ⟨rfl, rfl, rfl, rfl⟩

/-- **The end of a read**: the line with a newline, and an empty line behind. -/
theorem Follows.readLine {l : List (BitVec 8)} (h : Follows c.toData (.entered l)) {nbytes : ℕ}
    (hn : termBufSize < nbytes) :
    ∃ c', c.readLine nbytes = some (l ++ [ch '\n'], c') ∧ Follows c'.toData .idle := by
  obtain ⟨-, hdone, z, hz, rfl⟩ := h.phase
  obtain ⟨hbuf, hcount, hreading, hcanon⟩ := endLine_eq c
  have hbytes : (List.range (min nbytes c.endLine.termBufCount)).map c.endLine.termBuf =
      z.text ++ [ch '\n'] := by
    have hcopy : min nbytes c.endLine.termBufCount = c.termBufCount + 1 := by
      have hle := hz.count_le
      omega
    have hline : (List.range c.termBufCount).map c.endLine.termBuf = z.text := by
      rw [Zipper.text, ← hz.text, hbuf]
      refine List.map_congr_left fun i hi => ?_
      exact Function.update_of_ne (Nat.ne_of_lt (List.mem_range.mp hi)) _ _
    rw [hcopy, List.range_succ, List.map_append, hline, hbuf]
    simp
  rw [Console.readLine, if_neg (by rw [hdone]; exact Bool.noConfusion), ← hbytes]
  exact ⟨_, rfl, hcanon.trans h.termCanon, hreading, rfl, rfl, rfl⟩

/-- A read whose line has not been ended waits. -/
theorem readLine_of_not_done (hdone : c.termReadDone = false) (nbytes : ℕ) :
    c.readLine nbytes = none :=
  if_pos hdone

end console

/-! ## Runs -/

section run

variable {t u : Fin termNum} {s : System} {w : Watch} {o : Op} {k : Key} {c c' : Console}

theorem System.data_on (s : System) (u : Fin termNum) (f : Console → Console) :
    (s.on u f).data = Function.update s.data u (f (s.load u)).toData :=
  rfl

/-! An operation on another terminal. -/

theorem System.data_on_of_ne (hu : u ≠ t) (s : System) (f : Console → Console) :
    (s.on u f).data t = s.data t := by
  rw [System.data_on, Function.update_of_ne (Ne.symm hu)]

theorem System.data_termWrite_of_ne (hu : u ≠ t) (s : System) (bytes : List (BitVec 8)) :
    (s.termWrite u bytes).data t = s.data t :=
  Function.update_of_ne (Ne.symm hu) _ _

/-- A key for terminal `t`. -/
theorem GoesTo.data_eq (hgoes : GoesTo s t k) :
    (s.termKeyHandler k).data t = ((s.load t).handleKey k).toData := by
  obtain ⟨hk, rfl⟩ := hgoes
  rw [(s.data_termKeyHandler hk).1, Function.update_self]

/-- A key for another terminal, and one that switches to another. -/
theorem undrawn_of_not_goesTo (hgoes : ¬ GoesTo s t k) :
    ((s.termKeyHandler k).data t).undrawn = (s.data t).undrawn := by
  cases hk : System.switchKey k with
  | some ind => exact (s.undrawn_termKeyHandler_of_switch hk t).1
  | none => rw [(s.data_termKeyHandler hk).1, Function.update_of_ne fun ht => hgoes ⟨hk, ht.symm⟩]

/-! A read that still waits, and one that has got what it waits for. -/

theorem System.readEnd_of_none {canon : Bool} {nbytes : ℕ}
    (h : System.readResult canon nbytes c = none) : System.readEnd canon nbytes c = c := by
  rw [System.readEnd, h]

theorem System.readEnd_of_some {canon : Bool} {nbytes : ℕ} {bytes : List (BitVec 8)}
    (h : System.readResult canon nbytes c = some (bytes, c')) :
    System.readEnd canon nbytes c = c' := by
  rw [System.readEnd, h]

/-! What one operation does to the phase. -/

theorem Follows.readStart (h : Follows (w.sys.data t) w.phase)
    (hreads : w.Reads t (.readStart u)) :
    Follows ((w.step t (.readStart u)).sys.data t) (w.step t (.readStart u)).phase := by
  show Follows ((w.sys.on u Console.readStart).data t) (if u = t then _ else w.phase)
  by_cases hu : u = t
  · subst hu
    have hidle := h.phase
    rw [hreads rfl] at hidle
    obtain ⟨-, hdone, hcount, hcurpos⟩ := hidle
    have hempty : (w.sys.data u).line = Zipper.empty := by
      rw [Data.line, hcount, hcurpos]
      rfl
    rw [if_pos rfl, System.data_on, Function.update_self]
    refine ⟨h.termCanon, rfl, hdone, Data.represents_iff.mpr ⟨⟨?_, ?_⟩, hempty⟩⟩
    · exact hcurpos.le.trans (Nat.zero_le _)
    · exact hcount.le.trans (Nat.zero_le _)
  · rw [if_neg hu, System.data_on_of_ne hu]
    exact h

/-- A read of the terminal itself, by the phase. -/
theorem Follows.readEnd_self (h : Follows (w.sys.data t) w.phase) {nbytes : ℕ}
    (hpending : w.phase ≠ .idle) (hn : termBufSize < nbytes) :
    Follows ((w.step t (.readEnd t false nbytes)).sys.data t)
        (w.step t (.readEnd t false nbytes)).phase ∧ w.Delivers t (.readEnd t false nbytes) := by
  have hload : Follows (w.sys.load t).toData w.phase := h
  show Follows ((w.sys.on t (System.readEnd false nbytes)).data t)
    (w.nextPhase t (.readEnd t false nbytes)) ∧ _
  rw [System.data_on, Function.update_self, Watch.nextPhase]
  cases hp : w.phase with
  | idle => exact absurd hp hpending
  | typing z =>
    rw [hp] at hload
    have hwait : System.readResult false nbytes (w.sys.load t) = none :=
      readLine_of_not_done hload.phase.2.1 nbytes
    rw [System.readEnd_of_none hwait, hwait, if_neg fun hcond => Bool.noConfusion hcond.2]
    refine ⟨hload, fun _ r hr => ?_⟩
    rw [hwait] at hr
    cases hr
  | entered l =>
    rw [hp] at hload
    obtain ⟨c', hread, hidle⟩ := hload.readLine hn
    have hresult : System.readResult false nbytes (w.sys.load t) = some (l ++ [ch '\n'], c') :=
      hread
    rw [System.readEnd_of_some hresult, hresult, if_pos ⟨rfl, rfl⟩]
    refine ⟨hidle, fun _ r hr => ⟨l, hp, ?_⟩⟩
    rw [hresult] at hr
    cases hr
    rfl

theorem Follows.readEnd (h : Follows (w.sys.data t) w.phase) {canon : Bool} {nbytes : ℕ}
    (hreads : w.Reads t (.readEnd u canon nbytes)) :
    Follows ((w.step t (.readEnd u canon nbytes)).sys.data t)
        (w.step t (.readEnd u canon nbytes)).phase ∧ w.Delivers t (.readEnd u canon nbytes) := by
  by_cases hu : u = t
  · subst hu
    obtain ⟨hpending, rfl, hn⟩ := hreads rfl
    exact h.readEnd_self hpending hn
  · refine ⟨?_, fun hut => absurd hut hu⟩
    show Follows ((w.sys.on u (System.readEnd canon nbytes)).data t)
      (if u = t ∧ _ then _ else w.phase)
    rw [if_neg fun hcond => hu hcond.1, System.data_on_of_ne hu]
    exact h

theorem Follows.key (h : Follows (w.sys.data t) w.phase) (horderly : w.Orderly t (.key k)) :
    Follows ((w.step t (.key k)).sys.data t) (w.step t (.key k)).phase := by
  show Follows ((w.sys.termKeyHandler k).data t) (if GoesTo w.sys t k then _ else w.phase)
  by_cases hgoes : GoesTo w.sys t k
  · obtain ⟨henter, hkeep⟩ := horderly hgoes
    rw [if_pos hgoes, hgoes.data_eq]
    exact Follows.handleKey (c := w.sys.load t) h henter hkeep
  · rw [if_neg hgoes]
    exact h.congr (undrawn_of_not_goesTo hgoes)

/-- **One operation.** -/
theorem Follows.step (h : Follows (w.sys.data t) w.phase) (hreads : w.Reads t o)
    (horderly : w.Orderly t o) :
    Follows ((w.step t o).sys.data t) (w.step t o).phase ∧ w.Delivers t o := by
  cases o with
  | write u bytes =>
    have hdata : (w.step t (.write u bytes)).sys.data t = w.sys.data t :=
      System.data_termWrite_of_ne hreads w.sys bytes
    rw [hdata]
    exact ⟨h, trivial⟩
  | readStart u => exact ⟨h.readStart hreads, trivial⟩
  | readEnd u canon nbytes => exact h.readEnd hreads
  | key k => exact ⟨h.key horderly, trivial⟩
  | switchTerm ind => exact ⟨h.congr (w.sys.undrawn_switchTerm ind t), trivial⟩

/-- **A line is read as it was typed.**  Terminal `t` is in line mode, no read is pending and its line
is empty.  In every run of keys, reads of `t` and operations on the other terminals whose keys are
`Orderly`, every read of `t` that returns delivers the line that the editor makes of an empty line
with the keys handled after the read began and before the next Enter, and a newline. -/
theorem reads_deliver_typed_lines (s : System) (t : Fin termNum) (hidle : Follows (s.data t) .idle)
    (ops : List Op) (hreads : Runs.Meets (Watch.step t) (Watch.Reads t) ⟨s, .idle⟩ ops)
    (horderly : Runs.Meets (Watch.step t) (Watch.Orderly t) ⟨s, .idle⟩ ops) :
    Runs.Meets (Watch.step t) (Watch.Delivers t) ⟨s, .idle⟩ ops := by
  have hboth : Runs.Meets (Watch.step t) (fun w o => w.Reads t o ∧ w.Orderly t o) ⟨s, .idle⟩ ops :=
    hreads.and horderly
  exact hboth.imp (I := fun w => Follows (w.sys.data t) w.phase)
    (fun w o h ho => (h.step ho.1 ho.2).1) (fun w o h ho => (h.step ho.1 ho.2).2) hidle

/-- `ac`, a step back and `b`: `abc` is read. -/
theorem reads_deliver_typed_lines_abc :
    let s := System.unclearedTerms (fun _ _ => 0) fun _ => 0
    let ops : List Op := [.readStart 0, .key ⟨0, ch 'a'⟩, .key ⟨0, ch 'c'⟩, .key ⟨modCtrl, ch 'b'⟩,
      .key ⟨0, ch 'b'⟩, .key ⟨0, keyEnter⟩, .readEnd 0 false 1024]
    Runs.Meets (Watch.step 0) (Watch.Delivers 0) ⟨s, .idle⟩ ops ∧
      (System.readResult false 1024
        ((Runs.run (Watch.step 0) ⟨s, .idle⟩ ops.dropLast).sys.load 0)).map Prod.fst =
          some [ch 'a', ch 'b', ch 'c', ch '\n'] := by
  intro s ops
  exact ⟨reads_deliver_typed_lines s 0 ⟨rfl, rfl, rfl, rfl, rfl⟩ ops (by decide +kernel)
    (by decide +kernel), by decide +kernel⟩

/-- Enter before the read, which then returns an empty line; and a key between Enter and the end of
the read, which becomes part of the line. -/
theorem reads_not_as_typed :
    let s := System.unclearedTerms (fun _ _ => 0) fun _ => 0
    let early : List Op := [.key ⟨0, keyEnter⟩, .readStart 0, .readEnd 0 false 1024]
    let late : List Op := [.readStart 0, .key ⟨0, ch 'a'⟩, .key ⟨0, keyEnter⟩, .key ⟨0, ch 'b'⟩,
      .readEnd 0 false 1024]
    Follows (s.data 0) .idle ∧
      (Runs.Meets (Watch.step 0) (Watch.Reads 0) ⟨s, .idle⟩ early ∧
        ¬ Runs.Meets (Watch.step 0) (Watch.Delivers 0) ⟨s, .idle⟩ early) ∧
      (Runs.Meets (Watch.step 0) (Watch.Reads 0) ⟨s, .idle⟩ late ∧
        ¬ Runs.Meets (Watch.step 0) (Watch.Delivers 0) ⟨s, .idle⟩ late) := by
  intro s early late
  refine ⟨⟨rfl, rfl, rfl, rfl, rfl⟩, ⟨?_, ?_⟩, ⟨?_, ?_⟩⟩
  · decide +kernel
  · rintro ⟨-, -, hend, -⟩
    have hread : ((System.readResult false 1024
        ((Runs.run (Watch.step 0) ⟨s, .idle⟩ early.dropLast).sys.load 0)).isSome) = true := by
      decide +kernel
    obtain ⟨r, hr⟩ := Option.isSome_iff_exists.mp hread
    obtain ⟨l, hl, -⟩ := hend rfl r hr
    have hphase : (Runs.run (Watch.step 0) ⟨s, .idle⟩ early.dropLast).phase = .typing Zipper.empty := by
      decide +kernel
    cases hphase.symm.trans hl
  · decide +kernel
  · rintro ⟨-, -, -, -, hend, -⟩
    have hread : (System.readResult false 1024
        ((Runs.run (Watch.step 0) ⟨s, .idle⟩ late.dropLast).sys.load 0)).map Prod.fst =
          some [ch 'a', ch 'b', ch '\n'] := by
      decide +kernel
    obtain ⟨r, hr, hbytes⟩ := Option.map_eq_some_iff.mp hread
    obtain ⟨l, hl, hline⟩ := hend rfl r hr
    have hphase : (Runs.run (Watch.step 0) ⟨s, .idle⟩ late.dropLast).phase = .entered [ch 'a'] := by
      decide +kernel
    cases hphase.symm.trans hl
    exact absurd (hbytes.symm.trans hline) (by decide)

end run

end Term
end CoreOS
