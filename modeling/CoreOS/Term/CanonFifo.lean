import CoreOS.Term.ReadLine
import CoreOS.Term.Separation

/-!
# Canonical mode is a queue

In canonical mode a key is not edited: the handler puts the cursor behind the last byte of the line
and calls `addch`, and a read takes the first byte by putting the cursor behind it and calling
`delch`.  What the two make of the array together is a queue, `canonical_fifo`.  Only their number of
bytes has to be right for it, since each puts the cursor where it needs it; where it was before does
not matter.

Programs of the same terminal may write in between, and other terminals do what they like.  The
terminal has to stay in canonical mode: the same sequence that takes it out of it would make the next
key an editing key.
-/

namespace CoreOS
namespace Term

open Console

/-! ## The queue in the record -/

namespace Data

/-- The bytes that wait to be read. -/
def queue (d : Data) : List (BitVec 8) := (List.range d.termBufCount).map d.termBuf

/-- A terminal in canonical mode, with its queue inside the array. -/
structure Canonical (d : Data) : Prop where
  termCanon : d.termCanon = true
  count_le : d.termBufCount ≤ termBufSize

/-- The queue is the line, wherever the cursor is put. -/
theorem queue_eq_text {d : Data} {n : ℕ} (hn : n ≤ d.termBufCount) :
    d.queue = (Zipper.ofArray d.termBuf d.termBufCount n).text := by
  rw [Zipper.text_ofArray hn, Zipper.slice, Nat.sub_zero, ← List.range_eq_range', queue]

theorem InLine.queue_eq {d : Data} (h : d.InLine) : d.queue = d.line.text := h.text.symm

end Data

namespace Console

section queue

variable {c : Console} {k : Key}

/-- **A key** is taken in while a read is pending and there is room. -/
theorem queue_handleKey (h : c.Canonical) (k : Key) :
    (c.handleKey k).Canonical ∧ (c.handleKey k).queue =
      c.queue ++ if c.reading = true ∧ c.termBufCount < termBufSize then [k.key] else [] := by
  let d : Console := { c with termCurpos := c.termBufCount }
  have hkey : c.handleKey k = d.addch k.key := if_pos h.termCanon
  have hin : d.InLine := ⟨Nat.le_refl _, h.count_le⟩
  rw [hkey]
  by_cases hreading : c.reading = true
  · have hedits := edits_addch hin hreading k.key
    have hcanon : (d.addch k.key).termCanon = c.termCanon := congrArg (·.termCanon) hedits.settings
    have hright : d.line.right = [] := Data.right_eq_nil (Nat.lt_irrefl _)
    have htext : d.line.left = c.queue := by
      rw [Data.queue_eq_text (Nat.le_refl _), Zipper.text]
      show _ = d.line.left ++ d.line.right
      rw [hright, List.append_nil]
    have hlen : d.line.text.length = c.termBufCount := hin.length_text
    refine ⟨⟨hcanon.trans h.termCanon, hedits.inLine.count_le⟩, ?_⟩
    rw [hedits.inLine.queue_eq, hedits.line, hlen]
    by_cases hroom : c.termBufCount < termBufSize
    · rw [if_pos hroom, if_pos ⟨hreading, hroom⟩, Zipper.text, Zipper.insert, hright, htext,
        List.append_nil]
    · rw [if_neg hroom, if_neg fun hcond => hroom hcond.2, Zipper.text, hright, htext]
  · have hdeaf : d.addch k.key = d := if_neg fun hcond => hreading hcond.2
    rw [hdeaf, if_neg fun hcond => hreading hcond.1, List.append_nil]
    exact ⟨⟨h.termCanon, h.count_le⟩, rfl⟩

/-- **A read** waits while the queue is empty, and otherwise takes its first byte. -/
theorem queue_readCanon (h : c.Canonical) :
    (c.queue = [] ∧ c.readCanon = none) ∨ ∃ b l c', c.queue = b :: l ∧
      c.readCanon = some ([b], c') ∧ c'.Canonical ∧ c'.queue = l := by
  by_cases hcount : c.termBufCount = 0
  · refine Or.inl ⟨?_, if_pos hcount⟩
    rw [Data.queue, hcount]
    rfl
  · let d : Console := { c with reading := false, termCurpos := 1 }
    have hpos : 1 ≤ c.termBufCount := Nat.one_le_iff_ne_zero.mpr hcount
    have hin : d.InLine := ⟨hpos, h.count_le⟩
    have hedits := edits_delch hin
    have hcanon : d.delch.termCanon = c.termCanon := congrArg (·.termCanon) hedits.settings
    have hleft : d.line.left = [c.termBuf 0] := rfl
    have hqueue : c.queue = c.termBuf 0 :: d.line.right := by
      rw [Data.queue_eq_text hpos]
      rfl
    have hrest : d.delch.queue = d.line.right := by
      rw [hedits.inLine.queue_eq, hedits.line, Zipper.text, Zipper.erase, hleft]
      rfl
    exact Or.inr ⟨c.termBuf 0, d.line.right, d.delch, hqueue, if_neg hcount,
      ⟨hcanon.trans h.termCanon, hedits.inLine.count_le⟩, hrest⟩

/-! ## Output -/

/-- The line as it is stored. -/
def stored (c : Console) : (ℕ → BitVec 8) × ℕ := (c.termBuf, c.termBufCount)

theorem Draws.stored_eq {f : Console → Console} (hf : Draws f) (c : Console) :
    (f c).stored = c.stored := by
  obtain ⟨hbuf, hcount, -⟩ := hf.line_eq c
  exact Prod.ext hbuf hcount

theorem stored_setting (c : Console) (on : Bool) : (c.setting on).stored = c.stored := by
  rw [setting]
  split_ifs <;> rfl

theorem stored_clear (c : Console) : c.clear.stored = c.stored := by
  rw [clear_eq]
  rfl

theorem stored_escFuncs (c : Console) (f : BitVec 8) : (c.escFuncs f).stored = c.stored := by
  have hattr : ∀ attr, (c.setattr attr).stored = c.stored := fun _ => rfl
  have hpos : ∀ x y, (c.setpos x y).stored = c.stored := fun _ _ => rfl
  exact escFuncs_cases (P := fun d => d.stored = c.stored) rfl hattr hpos rfl (stored_clear c)
    (stored_setting c) f

theorem stored_pushArg (c : Console) : c.pushArg.stored = c.stored := by
  rw [pushArg]
  split <;> rfl

theorem stored_argParse (c : Console) (b : BitVec 8) : (c.argParse b).stored = c.stored := by
  rw [argParse]
  split_ifs
  · rfl
  · rfl
  · exact (stored_escFuncs { c.pushArg with bufLen := 0 } b).trans (stored_pushArg c)
  · exact stored_pushArg c

/-- **A byte written to a terminal** does not touch its line. -/
theorem stored_writeByte (c : Console) (b : BitVec 8) : (c.writeByte b).stored = c.stored := by
  have hparse : (c.escParse b).2.stored = c.stored := by
    rw [escParse]
    split_ifs
    · rfl
    · rfl
    · exact stored_argParse { c with argLen := 0, bufLen := 0, state := .argParse } b
    · exact stored_escFuncs { c with argLen := 0, bufLen := 0, state := .argParse } b
    · exact stored_argParse c b
    · rfl
  show (if (c.escParse b).1 then (c.escParse b).2.putc b else (c.escParse b).2).stored = _
  split
  · exact ((draws_putc b).stored_eq _).trans hparse
  · exact hparse

theorem stored_termWrite (c : Console) (bytes : List (BitVec 8)) :
    (c.termWrite bytes).stored = c.stored :=
  List.foldlRecOn (motive := fun d => Console.stored d = c.stored) bytes writeByte rfl
    fun _ hd b _ => (stored_writeByte _ b).trans hd

end queue

end Console

/-! ## Runs -/

section run

variable (t : Fin termNum)

/-- The byte that an operation puts into the queue of terminal `t`: a key handled there while a read
is pending and fewer than 127 bytes wait. -/
def accepted (s : System) : Op → List (BitVec 8)
  | .key k =>
    if GoesTo s t k ∧ (s.data t).reading = true ∧ (s.data t).termBufCount < termBufSize then [k.key]
    else []
  | _ => []

/-- The bytes that an operation returns to the reader of terminal `t`. -/
def returned (s : System) : Op → List (BitVec 8)
  | .readEnd u canon nbytes =>
    if u = t then ((System.readResult canon nbytes (s.load t)).map Prod.fst).getD [] else []
  | _ => []

/-- A read of terminal `t` has begun in canonical mode. -/
def BegunCanonical : Op → Prop
  | .readEnd u canon _ => u = t → canon = true
  | _ => True

instance : (o : Op) → Decidable (BegunCanonical t o)
  | .readEnd _ _ _ => inferInstanceAs (Decidable (_ → _))
  | .write _ _ => inferInstanceAs (Decidable True)
  | .readStart _ => inferInstanceAs (Decidable True)
  | .key _ => inferInstanceAs (Decidable True)
  | .switchTerm _ => inferInstanceAs (Decidable True)

/-- The terminal stays in canonical mode.  There is no other condition: keys, reads and writes come in
any order, on any terminal, and terminals are switched. -/
def StaysCanonical (s : System) (o : Op) : Prop :=
  BegunCanonical t o ∧ ((step s o).data t).termCanon = true

instance (s : System) (o : Op) : Decidable (StaysCanonical t s o) :=
  inferInstanceAs (Decidable (_ ∧ _))

/-- A read of terminal `t` returns one byte, the first of the queue, or waits if there is none. -/
def ReturnsFirst (s : System) : Op → Prop
  | .readEnd u canon nbytes => u = t →
      (System.readResult canon nbytes (s.load t)).map Prod.fst = (s.data t).queue.head?.map fun b => [b]
  | _ => True

variable {t} {s : System} {o : Op}

/-- The mode and what is stored are all that counts. -/
theorem Data.Canonical.congr {d d' : Data} (h : d.Canonical) (hcanon : d'.termCanon = true)
    (hbuf : d'.termBuf = d.termBuf) (hcount : d'.termBufCount = d.termBufCount) :
    d'.Canonical ∧ d'.queue = d.queue := by
  refine ⟨⟨hcanon, hcount.trans_le h.count_le⟩, ?_⟩
  rw [Data.queue, Data.queue, hbuf, hcount]

/-- Nor does the cursor count. -/
theorem Data.Canonical.of_undrawn {d d' : Data} (h : d.Canonical) (hd : d'.undrawn = d.undrawn) :
    d'.Canonical ∧ d'.queue = d.queue :=
  h.congr ((congrArg (·.termCanon) hd).trans h.termCanon) (congrArg (·.termBuf) hd)
    (congrArg (·.termBufCount) hd)

/-- What one operation has to do with the queue. -/
structure QueueStep (t : Fin termNum) (s : System) (o : Op) : Prop where
  canonical : ((step s o).data t).Canonical
  queue : (s.data t).queue ++ accepted t s o = returned t s o ++ ((step s o).data t).queue
  returnsFirst : ReturnsFirst t s o

/-- An operation that neither takes anything in nor returns anything. -/
theorem queueStep_of_quiet (hacc : accepted t s o = []) (hret : returned t s o = [])
    (hfirst : ReturnsFirst t s o) (hdata : ((step s o).data t).Canonical ∧
      ((step s o).data t).queue = (s.data t).queue) : QueueStep t s o := by
  refine ⟨hdata.1, ?_, hfirst⟩
  rw [hacc, hret, hdata.2, List.append_nil, List.nil_append]

theorem queueStep_write (h : (s.data t).Canonical) {u : Fin termNum} {bytes : List (BitVec 8)}
    (hcanon : ((step s (.write u bytes)).data t).termCanon = true) :
    QueueStep t s (.write u bytes) := by
  refine queueStep_of_quiet rfl rfl trivial ?_
  have hstored : ∀ c : Console, (c.termWrite bytes).stored = c.stored :=
    fun c => stored_termWrite c bytes
  by_cases hu : u = t
  · subst hu
    have hdata : (step s (.write u bytes)).data u = ((s.load u).termWrite bytes).toData :=
      Function.update_self u _ s.data
    obtain ⟨hbuf, hcount⟩ := Prod.mk.inj (hstored (s.load u))
    rw [hdata] at hcanon ⊢
    exact h.congr hcanon hbuf hcount
  · have hdata : (step s (.write u bytes)).data t = s.data t := System.data_termWrite_of_ne hu s bytes
    rw [hdata]
    exact ⟨h, rfl⟩

theorem queueStep_readStart (h : (s.data t).Canonical) (u : Fin termNum) :
    QueueStep t s (.readStart u) := by
  refine queueStep_of_quiet rfl rfl trivial ?_
  show ((s.on u readStart).data t).Canonical ∧ ((s.on u readStart).data t).queue = _
  by_cases hu : u = t
  · subst hu
    rw [System.data_on, Function.update_self]
    exact ⟨⟨h.termCanon, h.count_le⟩, rfl⟩
  · rw [System.data_on_of_ne hu]
    exact ⟨h, rfl⟩

/-- A read of the terminal itself. -/
theorem queueStep_readEnd_self (h : (s.data t).Canonical) (nbytes : ℕ) :
    QueueStep t s (.readEnd t true nbytes) := by
  have hdata : (step s (.readEnd t true nbytes)).data t =
      (System.readEnd true nbytes (s.load t)).toData := Function.update_self t _ s.data
  have hret : returned t s (.readEnd t true nbytes) =
    ((System.readResult true nbytes (s.load t)).map Prod.fst).getD [] := if_pos rfl
  rcases queue_readCanon (c := s.load t) h with ⟨hnil, hnone⟩ | ⟨b, l, c', hcons, hsome, hc', hl⟩
  · have hwait : System.readResult true nbytes (s.load t) = none := hnone
    have hnil' : (s.data t).queue = [] := hnil
    rw [System.readEnd_of_none hwait] at hdata
    rw [hwait] at hret
    refine queueStep_of_quiet rfl hret (fun _ => ?_) ?_
    · rw [hwait, hnil']
      rfl
    · rw [hdata]
      exact ⟨h, rfl⟩
  · have hresult : System.readResult true nbytes (s.load t) = some ([b], c') := hsome
    have hcons' : (s.data t).queue = b :: l := hcons
    rw [System.readEnd_of_some hresult] at hdata
    rw [hresult] at hret
    refine ⟨?_, ?_, fun _ => ?_⟩
    · rw [hdata]
      exact hc'
    · rw [hret, hdata, hl, hcons']
      exact List.append_nil _
    · rw [hresult, hcons']
      rfl

theorem queueStep_readEnd (h : (s.data t).Canonical) {u : Fin termNum} {canon : Bool} {nbytes : ℕ}
    (hbegun : u = t → canon = true) : QueueStep t s (.readEnd u canon nbytes) := by
  by_cases hu : u = t
  · subst hu
    obtain rfl : canon = true := hbegun rfl
    exact queueStep_readEnd_self h nbytes
  · refine queueStep_of_quiet rfl (if_neg hu) (fun hut => absurd hut hu) ?_
    show ((s.on u _).data t).Canonical ∧ ((s.on u _).data t).queue = _
    rw [System.data_on_of_ne hu]
    exact ⟨h, rfl⟩

theorem queueStep_key (h : (s.data t).Canonical) (k : Key) : QueueStep t s (.key k) := by
  by_cases hgoes : GoesTo s t k
  · have hdata : (step s (.key k)).data t = ((s.load t).handleKey k).toData := hgoes.data_eq
    obtain ⟨hcanonical, hqueue⟩ := queue_handleKey (c := s.load t) h k
    refine ⟨?_, ?_, trivial⟩
    · rw [hdata]
      exact hcanonical
    · have hacc : accepted t s (.key k) =
          if (s.load t).reading = true ∧ (s.load t).termBufCount < termBufSize then [k.key] else [] :=
        if_congr (and_iff_right hgoes) rfl rfl
      rw [hdata, hqueue, hacc]
      rfl
  · exact queueStep_of_quiet (if_neg fun hcond => hgoes hcond.1) rfl trivial
      (h.of_undrawn (undrawn_of_not_goesTo hgoes))

/-- **One operation.** -/
theorem queueStep (h : (s.data t).Canonical) (ho : StaysCanonical t s o) : QueueStep t s o := by
  cases o with
  | write u bytes => exact queueStep_write h ho.2
  | readStart u => exact queueStep_readStart h u
  | readEnd u canon nbytes => exact queueStep_readEnd h ho.1
  | key k => exact queueStep_key h k
  | switchTerm ind =>
    exact queueStep_of_quiet rfl rfl trivial (h.of_undrawn (s.undrawn_switchTerm ind t))

/-- **Canonical mode is a queue.**  From a moment when the queue of terminal `t` is empty, and as long
as the terminal stays in canonical mode, every read of it returns one byte or waits, the bytes taken
in are the bytes returned followed by those in the queue, in the same order, and a read returns the
first of the queue. -/
theorem canonical_fifo (s : System) (t : Fin termNum) (hcanon : (s.data t).termCanon = true)
    (hempty : (s.data t).termBufCount = 0) (ops : List Op)
    (h : Runs.Meets step (StaysCanonical t) s ops) :
    Runs.collect step (accepted t) s ops =
        Runs.collect step (returned t) s ops ++ ((Runs.run step s ops).data t).queue ∧
      Runs.Meets step (ReturnsFirst t) s ops := by
  have hcanonical : (s.data t).Canonical := ⟨hcanon, hempty.trans_le (Nat.zero_le _)⟩
  have hstep : ∀ s o, (s.data t).Canonical → StaysCanonical t s o →
      ((step s o).data t).Canonical := fun s o hs ho => (queueStep hs ho).canonical
  refine ⟨?_, h.imp hstep (fun s o hs ho => (queueStep hs ho).returnsFirst) hcanonical⟩
  have hqueue : (s.data t).queue ++ Runs.collect step (accepted t) s ops = _ :=
    Runs.queue_of_meets hstep (fun s o hs ho => (queueStep hs ho).queue) hcanonical h
  have hnil : (s.data t).queue = [] := by
    rw [Data.queue, hempty]
    rfl
  rwa [hnil, List.nil_append] at hqueue

/-- Three keys, the first of them while no read is pending, and two reads, the second of which returns
the byte that was typed after the first. -/
theorem canonical_fifo_two_reads :
    let s : System := { System.unclearedTerms (fun _ _ => 0) fun _ => 0 with
      data := fun _ => { System.initData with termCanon := true } }
    let ops : List Op := [.key ⟨0, ch 'x'⟩, .readStart 0, .key ⟨0, ch 'a'⟩, .key ⟨0, ch 'b'⟩,
      .readEnd 0 true 1, .readStart 0, .readEnd 0 true 1]
    Runs.collect step (accepted 0) s ops = [ch 'a', ch 'b'] ∧
      Runs.collect step (returned 0) s ops = [ch 'a', ch 'b'] ∧
      Runs.Meets step (ReturnsFirst 0) s ops := by
  intro s ops
  obtain ⟨hqueue, hreads⟩ := canonical_fifo s 0 rfl rfl ops (by decide +kernel)
  refine ⟨?_, ?_, hreads⟩
  · decide +kernel
  · decide +kernel

end run

end Term
end CoreOS
