import CoreOS.Kb.Events
import CoreOS.Term.ReadLine

/-!
# From the keyboard to the reader

The keyboard and the terminals together.  A text is typed with the scan codes of a keyboard: a
character is pressed and released, with a shift key around it where it needs one (`strokes`).  Between
two scan codes the processes on the other terminals may do anything, and an interrupt may find that
nothing has been sent.

What is typed is what is read: a process that waits for a line on the terminal on display gets the text
that has been typed, as far as the line holds it, and a newline (`typed_text_is_read`).  The two tables
of the driver are what makes every printable character reach the line (`strokes_spec`).
-/

namespace CoreOS
namespace Kb

open Runs Term Term.Console

/-! ## Typing a character -/

/-- The key of a table that has a character. -/
def codeIn (map : List KeyT) (c : BitVec 8) : Option (BitVec 8) :=
  (map.findIdx? fun k => k = keyP c).map (BitVec.ofNat 8)

/-- The scan codes with which a character is typed. -/
def strokes (c : BitVec 8) : List (BitVec 8) :=
  match codeIn keyboardMap c with
  | some k => [k, k ||| 0x80]
  | none =>
    match codeIn shiftMap c with
    | some k => [0x2A, k, k ||| 0x80, 0xAA]
    | none => []

/-- The scan codes of Enter. -/
def enterStrokes : List (BitVec 8) := [0x1C, 0x9C]

/-- The characters between the space and the tilde. -/
def Printable (c : BitVec 8) : Prop := 0x20 ≤ c ∧ c ≤ 0x7E

instance decidablePrintable (c : BitVec 8) : Decidable (Printable c) :=
  inferInstanceAs (Decidable (_ ∧ _))

/-- A scan code that is ready, with nothing in the local variable. -/
def scan (data : BitVec 8) : Scan := ⟨1, data, keyR 0⟩

/-- These codes hand on these events, and the driver is then as it was at first.  F11 and F12 are not
among them. -/
structure Sends (codes : List (BitVec 8)) (ks : List KeyT) : Prop where
  state : run next State.init (codes.map scan) = State.init
  events : collect next events State.init (codes.map scan) = ks
  notLate : 0x57 ∉ codes ∧ 0x58 ∉ codes

theorem Sends.append {codes codes' : List (BitVec 8)} {ks ks' : List KeyT} (h : Sends codes ks)
    (h' : Sends codes' ks') : Sends (codes ++ codes') (ks ++ ks') := by
  refine ⟨?_, ?_, ?_⟩
  · rw [List.map_append, run_append, h.state, h'.state]
  · rw [List.map_append, collect_append, h.events, h.state, h'.events]
  · simp only [List.mem_append, not_or]
    exact ⟨⟨h.notLate.1, h'.notLate.1⟩, h.notLate.2, h'.notLate.2⟩

instance decidableSends (codes : List (BitVec 8)) (ks : List KeyT) : Decidable (Sends codes ks) :=
  decidable_of_iff (_ ∧ _ ∧ _) ⟨fun h => ⟨h.1, h.2.1, h.2.2⟩, fun h => ⟨h.1, h.2, h.3⟩⟩

/-! The tables, key by key. -/

theorem sends_plain : ∀ k < 58, (entry keyboardMap (BitVec.ofNat 8 k)).t = keyPrint →
    Sends [BitVec.ofNat 8 k, BitVec.ofNat 8 k ||| 0x80] [entry keyboardMap (BitVec.ofNat 8 k)] := by
  decide +kernel

theorem sends_shifted : ∀ k < 58, (entry shiftMap (BitVec.ofNat 8 k)).t = keyPrint →
    Sends [0x2A, BitVec.ofNat 8 k, BitVec.ofNat 8 k ||| 0x80, 0xAA]
      [entry shiftMap (BitVec.ofNat 8 k)] := by
  decide +kernel

/-- Every printable character is in one of the two tables. -/
theorem mem_tables : ∀ n < 0x7F, 0x20 ≤ n →
    keyP (BitVec.ofNat 8 n) ∈ keyboardMap ∨ keyP (BitVec.ofNat 8 n) ∈ shiftMap := by
  decide +kernel

theorem codeIn_eq_some {map : List KeyT} {c k : BitVec 8} (hmap : map.length = 58)
    (h : codeIn map c = some k) : ∃ i < 58, k = BitVec.ofNat 8 i ∧ entry map k = keyP c := by
  obtain ⟨i, hi, rfl⟩ := Option.map_eq_some_iff.mp h
  obtain ⟨hlt, hkey, -⟩ := List.findIdx?_eq_some_iff_getElem.mp hi
  rw [hmap] at hlt
  have hnat : (BitVec.ofNat 8 i).toNat = i := by
    rw [BitVec.toNat_ofNat]
    omega
  refine ⟨i, hlt, rfl, ?_⟩
  rw [entry, hnat, List.getD_eq_getElem?_getD, List.getElem?_eq_getElem (hmap.symm ▸ hlt)]
  exact of_decide_eq_true hkey

theorem codeIn_eq_none {map : List KeyT} {c : BitVec 8} (h : codeIn map c = none) : keyP c ∉ map := by
  intro hmem
  have hnone := List.findIdx?_eq_none_iff.mp (Option.map_eq_none_iff.mp h) _ hmem
  exact absurd rfl (of_decide_eq_false hnone)

/-- **A printable character** reaches the terminal as itself. -/
theorem strokes_spec {c : BitVec 8} (hc : Printable c) : Sends (strokes c) [keyP c] := by
  unfold strokes
  cases hplain : codeIn keyboardMap c with
  | some k =>
    obtain ⟨i, hi, rfl, hentry⟩ := codeIn_eq_some rfl hplain
    have hsends := sends_plain i hi (by rw [hentry]; rfl)
    rwa [hentry] at hsends
  | none =>
    cases hshift : codeIn shiftMap c with
    | some k =>
      obtain ⟨i, hi, rfl, hentry⟩ := codeIn_eq_some rfl hshift
      have hsends := sends_shifted i hi (by rw [hentry]; rfl)
      rwa [hentry] at hsends
    | none =>
      have hlow : 0x20 ≤ c.toNat := BitVec.le_def.mp hc.1
      have hhigh : c.toNat ≤ 0x7E := BitVec.le_def.mp hc.2
      have hmem := mem_tables c.toNat (by omega) hlow
      rw [BitVec.ofNat_toNat, BitVec.setWidth_eq] at hmem
      rcases hmem with hmem | hmem
      · exact absurd hmem (codeIn_eq_none hplain)
      · exact absurd hmem (codeIn_eq_none hshift)

/-- A whole text. -/
theorem sends_text {u : List (BitVec 8)} (hu : ∀ c ∈ u, Printable c) :
    Sends (u.flatMap strokes) (u.map keyP) := by
  induction u with
  | nil => exact ⟨rfl, rfl, List.not_mem_nil, List.not_mem_nil⟩
  | cons c u ih =>
    rw [List.flatMap_cons, List.map_cons]
    exact (strokes_spec (hu c List.mem_cons_self)).append
      (ih fun c' hc' => hu c' (List.mem_cons_of_mem c hc'))

theorem sends_enter : Sends enterStrokes [keyR keyEnter] := by decide +kernel

/-! ## The keyboard and the terminals -/

/-- A keyboard interrupt, or something a process does to its terminal. -/
inductive Event where
  | scan (x : Scan)
  | op (o : Op)

/-- The keyboard driver and the terminals. -/
structure Desk where
  kb : State
  terms : Term.System

/-- One event. -/
def Desk.step (d : Desk) : Event → Desk
  | .scan x => ⟨next d.kb x, typed d.terms (events d.kb x)⟩
  | .op o => ⟨d.kb, Term.step d.terms o⟩

/-- The scan codes that were ready. -/
def codes : List Event → List (BitVec 8)
  | [] => []
  | .scan x :: es => if x.status &&& 1 = 0 then codes es else x.data :: codes es
  | .op _ :: es => codes es

/-- What the events are for the terminals. -/
def ops (s : State) : List Event → List Op
  | [] => []
  | .scan x :: es => (events s x).map (fun k => .key k.event) ++ ops (next s x) es
  | .op o :: es => o :: ops s es

/-- The keys among the operations. -/
def keys (os : List Op) : List Console.Key :=
  os.filterMap fun
    | .key k => some k
    | _ => none

/-- The process of another terminal does it. -/
def Elsewhere (t : Fin termNum) : Op → Prop
  | .write u _ => u ≠ t
  | .readStart u => u ≠ t
  | .readEnd u _ _ => u ≠ t
  | .key _ => False
  | .switchTerm _ => False

instance decidableElsewhere (t : Fin termNum) : (o : Op) → Decidable (Elsewhere t o)
  | .write _ _ => inferInstanceAs (Decidable (_ ≠ _))
  | .readStart _ => inferInstanceAs (Decidable (_ ≠ _))
  | .readEnd _ _ _ => inferInstanceAs (Decidable (_ ≠ _))
  | .key _ => inferInstanceAs (Decidable False)
  | .switchTerm _ => inferInstanceAs (Decidable False)

/-- The operations among the events are those of other terminals. -/
def Others (t : Fin termNum) : Event → Prop
  | .scan _ => True
  | .op o => Elsewhere t o

instance decidableOthers (t : Fin termNum) : (e : Event) → Decidable (Others t e)
  | .scan _ => inferInstanceAs (Decidable True)
  | .op o => inferInstanceAs (Decidable (Elsewhere t o))

theorem terms_run (d : Desk) (es : List Event) :
    (run Desk.step d es).terms = run Term.step d.terms (ops d.kb es) := by
  induction es generalizing d with
  | nil => rfl
  | cons e es ih =>
    rw [run_cons, ih]
    cases e with
    | scan x =>
      rw [ops, run_append, ← typed_eq_run]
      rfl
    | op o => rfl

/-- An interrupt without a code does nothing. -/
theorem kbIsr_idle {x : Scan} (h : x.status &&& 1 = 0) (s : State) :
    next s x = s ∧ events s x = [] := by
  rw [next, events, State.kbIsr, if_pos h]
  exact ⟨rfl, rfl⟩

/-- Any other, if it is not of F11 or F12, does not depend on the local variable. -/
theorem kbIsr_scan {x : Scan} (hready : x.status &&& 1 ≠ 0) (hlate : x.data ≠ 0x57 ∧ x.data ≠ 0x58)
    (s : State) : next s x = next s (scan x.data) ∧ events s x = events s (scan x.data) := by
  have hone : OneEvent s ⟨1, x.data, keyR 0⟩ := (oneEvent_iff s _).mpr fun _ _ => hlate
  have hkey : s.kbIsr 1 x.data x.key = s.kbIsr 1 x.data (keyR 0) := hone.determined x.key
  have hstatus : s.kbIsr x.status x.data x.key = s.kbIsr 1 x.data x.key := by
    rw [State.kbIsr, State.kbIsr, if_neg hready, if_neg ready]
  rw [next, next, events, events, scan, hstatus, hkey]
  exact ⟨rfl, rfl⟩

theorem keys_append (os os' : List Op) : keys (os ++ os') = keys os ++ keys os' :=
  List.filterMap_append

theorem keys_map_key (ks : List KeyT) :
    keys (ks.map fun k => .key k.event) = ks.map KeyT.event := by
  induction ks with
  | nil => rfl
  | cons k ks ih => exact congrArg (k.event :: ·) ih

theorem keys_cons_of_elsewhere {t : Fin termNum} {o : Op} (ho : Elsewhere t o) (os : List Op) :
    keys (o :: os) = keys os := by
  cases o with
  | key k => exact ho.elim
  | _ => rfl

section desk

variable {t : Fin termNum} {s : State} {es : List Event}

/-- **The keys that reach the terminals** are those the codes send. -/
theorem keys_ops (hlate : 0x57 ∉ codes es ∧ 0x58 ∉ codes es) (hothers : ∀ e ∈ es, Others t e) :
    keys (ops s es) = (collect next events s ((codes es).map scan)).map KeyT.event := by
  induction es generalizing s with
  | nil => rfl
  | cons e es ih =>
    have hrest : ∀ e ∈ es, Others t e := fun e he => hothers e (List.mem_cons_of_mem _ he)
    cases e with
    | scan x =>
      rw [ops, keys_append, keys_map_key]
      by_cases hready : x.status &&& 1 = 0
      · obtain ⟨hnext, hevents⟩ := kbIsr_idle hready s
        rw [codes, if_pos hready] at hlate ⊢
        rw [hnext, hevents]
        exact ih hlate hrest
      · rw [codes, if_neg hready] at hlate ⊢
        simp only [List.mem_cons, not_or] at hlate
        obtain ⟨hnext, hevents⟩ := kbIsr_scan hready ⟨Ne.symm hlate.1.1, Ne.symm hlate.2.1⟩ s
        rw [hnext, hevents, ih ⟨hlate.1.2, hlate.2.2⟩ hrest, List.map_cons, collect_cons,
          List.map_append]
    | op o =>
      rw [ops, keys_cons_of_elsewhere (hothers _ List.mem_cons_self)]
      exact ih hlate hrest

/-- The driver after the events. -/
theorem kb_run {d : Desk} (hlate : 0x57 ∉ codes es ∧ 0x58 ∉ codes es) :
    (run Desk.step d es).kb = run next d.kb ((codes es).map scan) := by
  induction es generalizing d with
  | nil => rfl
  | cons e es ih =>
    rw [run_cons]
    cases e with
    | scan x =>
      by_cases hready : x.status &&& 1 = 0
      · rw [codes, if_pos hready] at hlate ⊢
        rw [ih hlate, Desk.step, (kbIsr_idle hready d.kb).1]
      · rw [codes, if_neg hready] at hlate ⊢
        simp only [List.mem_cons, not_or] at hlate
        rw [ih ⟨hlate.1.2, hlate.2.2⟩, Desk.step, List.map_cons, run_cons,
          (kbIsr_scan hready ⟨Ne.symm hlate.1.1, Ne.symm hlate.2.1⟩ d.kb).1]
    | op o =>
      rw [codes] at hlate ⊢
      exact ih hlate

theorem ops_cases (hothers : ∀ e ∈ es, Others t e) :
    ∀ o ∈ ops s es, Elsewhere t o ∨ ∃ k, o = .key k := by
  induction es generalizing s with
  | nil => exact fun o ho => absurd ho List.not_mem_nil
  | cons e es ih =>
    have hrest : ∀ e ∈ es, Others t e := fun e he => hothers e (List.mem_cons_of_mem _ he)
    intro o ho
    cases e with
    | scan x =>
      rcases List.mem_append.mp ho with ho | ho
      · obtain ⟨k, -, rfl⟩ := List.mem_map.mp ho
        exact Or.inr ⟨k.event, rfl⟩
      · exact ih hrest o ho
    | op o' =>
      rcases List.mem_cons.mp ho with rfl | ho
      · exact Or.inl (hothers _ List.mem_cons_self)
      · exact ih hrest o ho

end desk

/-! ## The line -/

section line

variable {t : Fin termNum} {s : Term.System} {os : List Op} {p : Phase} {z : Zipper (BitVec 8)}

/-- An operation of another terminal leaves this one alone. -/
theorem Elsewhere.step {o : Op} (ho : Elsewhere t o) (h : Follows (s.data t) p) :
    (Term.step s o).curTermInd = s.curTermInd ∧ Follows ((Term.step s o).data t) p := by
  cases o with
  | write u bytes =>
    have hdata : (s.termWrite u bytes).data t = s.data t :=
      System.data_termWrite_of_ne ho s bytes
    exact ⟨rfl, h.congr (congrArg Data.undrawn hdata)⟩
  | readStart u =>
    have hdata : (s.on u readStart).data t = s.data t := System.data_on_of_ne ho s _
    exact ⟨rfl, h.congr (congrArg Data.undrawn hdata)⟩
  | readEnd u canon nbytes =>
    have hdata : (s.on u (System.readEnd canon nbytes)).data t = s.data t :=
      System.data_on_of_ne ho s _
    exact ⟨rfl, h.congr (congrArg Data.undrawn hdata)⟩
  | key k => exact ho.elim
  | switchTerm ind => exact ho.elim

/-- **A run without a key** for the terminal. -/
theorem follows_elsewhere (hos : ∀ o ∈ os, Elsewhere t o) (h : Follows (s.data t) p) :
    (run Term.step s os).curTermInd = s.curTermInd ∧
      Follows ((run Term.step s os).data t) p := by
  induction os generalizing s with
  | nil => exact ⟨rfl, h⟩
  | cons o os ih =>
    obtain ⟨hcur, hstep⟩ := (hos o List.mem_cons_self).step h
    rw [run_cons, ← hcur]
    exact ih (fun o' ho' => hos o' (List.mem_cons_of_mem o ho')) hstep

/-- A key on the terminal on display. -/
theorem key_step {k : Console.Key} (hk : System.switchKey k = none) (hcur : s.curTermInd = t)
    (h : Follows (s.data t) (.typing z)) : (s.termKeyHandler k).curTermInd = t ∧
      Follows ((s.termKeyHandler k).data t) (Phase.key k (.typing z)) := by
  have hreading : (s.data t).reading = true := h.phase.1
  have hdone : (s.data t).termReadDone = false := h.phase.2.1
  refine ⟨(s.data_termKeyHandler hk).2.trans hcur, ?_⟩
  rw [GoesTo.data_eq ⟨hk, hcur⟩]
  exact Follows.handleKey (c := s.load t) h (fun _ => hreading)
    fun h' => absurd (hdone.symm.trans h') Bool.noConfusion

/-- A key that types a character. -/
def Types (k : Console.Key) : Prop := inserts k ∧ System.switchKey k = none

theorem not_isEnter_of_inserts {k : Console.Key} (hk : inserts k) : ¬ isEnter k := by
  rintro (⟨hctrl, -⟩ | ⟨-, -, henter⟩)
  · exact hk.1 hctrl
  · exact hk.2.2.1 henter

/-- **A run of typing**: every key puts its character in. -/
theorem follows_typing (hos : ∀ o ∈ os, Elsewhere t o ∨ ∃ k, o = .key k)
    (hkeys : ∀ k ∈ keys os, Types k) (hcur : s.curTermInd = t)
    (h : Follows (s.data t) (.typing z)) :
    (run Term.step s os).curTermInd = t ∧
      Follows ((run Term.step s os).data t) (.typing ((keys os).foldl (fun z k => editKey k z) z)) := by
  induction os generalizing s z with
  | nil => exact ⟨hcur, h⟩
  | cons o os ih =>
    have hrest : ∀ o ∈ os, Elsewhere t o ∨ ∃ k, o = .key k := fun o ho =>
      hos o (List.mem_cons_of_mem _ ho)
    rw [run_cons]
    rcases hos o List.mem_cons_self with ho | ⟨k, rfl⟩
    · obtain ⟨hcur', hstep⟩ := ho.step h
      rw [keys_cons_of_elsewhere ho] at hkeys ⊢
      exact ih hrest hkeys (hcur'.trans hcur) hstep
    · have hmem : ∀ k' ∈ k :: keys os, Types k' := hkeys
      obtain ⟨hins, hswitch⟩ := hmem k List.mem_cons_self
      obtain ⟨hcur', hstep⟩ := key_step hswitch hcur h
      rw [Phase.key, if_neg (not_isEnter_of_inserts hins)] at hstep
      exact ih hrest (fun k' hk' => hmem k' (List.mem_cons_of_mem k hk')) hcur' hstep

/-- What is typed at the end of a line, as far as it has room. -/
theorem foldl_editKey {ks : List Console.Key} (hks : ∀ k ∈ ks, inserts k) {l : List (BitVec 8)}
    (hl : l.length ≤ termBufSize) : ks.foldl (fun z k => editKey k z) ⟨l, []⟩ =
      ⟨(l ++ ks.map (·.key)).take termBufSize, []⟩ := by
  induction ks generalizing l with
  | nil => simp [List.take_of_length_le hl]
  | cons k ks ih =>
    have hrest : ∀ k ∈ ks, inserts k := fun k' hk' => hks k' (List.mem_cons_of_mem k hk')
    have hlen : (⟨l, []⟩ : Zipper (BitVec 8)).text.length = l.length := by
      rw [Zipper.text, List.append_nil]
    rw [List.foldl_cons, editKey_of_inserts (hks k List.mem_cons_self), hlen]
    by_cases hroom : l.length < termBufSize
    · have hlong : (l ++ [k.key]).length ≤ termBufSize := by
        rw [List.length_append]
        exact hroom
      rw [if_pos hroom, Zipper.insert, ih hrest hlong, List.map_cons, List.append_assoc]
      rfl
    · have hfull : l.length = termBufSize := le_antisymm hl (Nat.le_of_not_lt hroom)
      rw [if_neg hroom, ih hrest hl, List.take_left' hfull, List.take_left' hfull]

/-- The last key of a run. -/
theorem split_keys {ks : List Console.Key} {k : Console.Key}
    (hos : ∀ o ∈ os, Elsewhere t o ∨ ∃ k, o = .key k) (h : keys os = ks ++ [k]) :
    ∃ os₁ os₂, os = os₁ ++ .key k :: os₂ ∧ keys os₁ = ks ∧ ∀ o ∈ os₂, Elsewhere t o := by
  induction os using List.reverseRecOn with
  | nil => exact absurd h.symm (List.append_ne_nil_of_right_ne_nil _ (List.cons_ne_nil _ _))
  | append_singleton os o ih =>
    have hinit : ∀ o ∈ os, Elsewhere t o ∨ ∃ k, o = .key k := fun o' ho' =>
      hos o' (List.mem_append_left _ ho')
    rw [keys_append] at h
    rcases hos o (List.mem_append_right _ List.mem_cons_self) with ho | ⟨k', rfl⟩
    · rw [keys_cons_of_elsewhere ho] at h
      obtain ⟨os₁, os₂, rfl, hkeys, hafter⟩ := ih hinit ((List.append_nil _).symm.trans h)
      refine ⟨os₁, os₂ ++ [o], by simp, hkeys, fun o' ho' => ?_⟩
      rcases List.mem_append.mp ho' with ho' | ho'
      · exact hafter o' ho'
      · rw [List.mem_singleton.mp ho']
        exact ho
    · change keys os ++ [k'] = ks ++ [k] at h
      obtain ⟨hkeys, hlast⟩ := List.append_inj' h rfl
      cases hlast
      exact ⟨os, [], rfl, hkeys, fun o' ho' => absurd ho' List.not_mem_nil⟩

end line

/-- A printable character is typed by its key. -/
theorem types_keyP : ∀ n < 0x7F, 0x20 ≤ n → Types (keyP (BitVec.ofNat 8 n)).event := by
  unfold Types
  decide +kernel

/-- **What is typed is what is read.**  A process waits for a line on the terminal on display, which is
in line mode, and the keyboard is as it was at first.  A text of printable characters is typed, and
Enter, while the processes on the other terminals write, read, and wait as they like.  Then the read
returns the text, cut off at what the line holds, and a newline, and everything is ready for the next
line. -/
theorem typed_text_is_read {d : Desk} {t : Fin termNum} (hkb : d.kb = State.init)
    (hcur : d.terms.curTermInd = t) (hidle : Follows (d.terms.data t) .idle) {u : List (BitVec 8)}
    (hu : ∀ c ∈ u, Printable c) {es : List Event}
    (hcodes : codes es = u.flatMap strokes ++ enterStrokes) (hothers : ∀ e ∈ es, Others t e)
    {nbytes : ℕ} (hn : termBufSize < nbytes) :
    let d' := run Desk.step (d.step (.op (.readStart t))) es
    d'.kb = State.init ∧ d'.terms.curTermInd = t ∧
      ∃ c', System.readResult false nbytes (d'.terms.load t) =
          some (u.take termBufSize ++ [ch '\n'], c') ∧ Follows c'.toData .idle := by
  intro d'
  have hsends := (sends_text hu).append sends_enter
  rw [← hcodes] at hsends
  have hkb' : d'.kb = State.init := by
    rw [kb_run hsends.notLate, ← hsends.state, ← hkb]
    rfl
  -- the read begins
  have hstart : Follows ((d.terms.on t readStart).data t) (.typing Zipper.empty) := by
    have h := Follows.readStart (t := t) (u := t) (w := ⟨d.terms, .idle⟩) hidle fun _ => rfl
    have hphase : ((⟨d.terms, .idle⟩ : Watch).step t (.readStart t)).phase = .typing Zipper.empty :=
      if_pos rfl
    rwa [hphase] at h
  -- the keys that arrive
  have hos := ops_cases (s := d.kb) hothers
  have hkeys : keys (ops d.kb es) = u.map (fun c => (keyP c).event) ++ [(keyR keyEnter).event] := by
    rw [keys_ops hsends.notLate hothers, hkb, hsends.events, List.map_append, List.map_map]
    rfl
  obtain ⟨os₁, os₂, hsplit, hkeys₁, hos₂⟩ := split_keys hos hkeys
  rw [hsplit] at hos
  have htypes : ∀ k ∈ u.map fun c => (keyP c).event, Types k := by
    intro k hk
    obtain ⟨c, hc, rfl⟩ := List.mem_map.mp hk
    have hlow : 0x20 ≤ c.toNat := BitVec.le_def.mp (hu c hc).1
    have hhigh : c.toNat ≤ 0x7E := BitVec.le_def.mp (hu c hc).2
    have h := types_keyP c.toNat (by omega) hlow
    rwa [BitVec.ofNat_toNat, BitVec.setWidth_eq] at h
  -- the characters, Enter, and what comes after it
  obtain ⟨hcur₁, h₁⟩ := follows_typing (s := d.terms.on t readStart)
    (fun o ho => hos o (List.mem_append_left _ ho)) (hkeys₁ ▸ htypes) hcur hstart
  obtain ⟨hcur₂, h₂⟩ := key_step (k := (keyR keyEnter).event) (by decide) hcur₁ h₁
  rw [Phase.key, if_pos (show isEnter (keyR keyEnter).event by decide), hkeys₁] at h₂
  obtain ⟨hcur₃, h₃⟩ := follows_elsewhere hos₂ h₂
  have hterms : d'.terms = run Term.step (((run Term.step (d.terms.on t readStart) os₁)).termKeyHandler
      (keyR keyEnter).event) os₂ := by
    rw [terms_run]
    show run Term.step (d.terms.on t readStart) (ops d.kb es) = _
    rw [hsplit, run_append, run_cons]
    rfl
  rw [hterms]
  refine ⟨hkb', hcur₃.trans hcur₂, ?_⟩
  have htext := foldl_editKey (fun k hk => (htypes k hk).1) (l := []) (Nat.zero_le _)
  rw [Zipper.empty, htext, Zipper.text, List.append_nil, List.nil_append, List.map_map] at h₃
  have hid : u.map ((fun k : Console.Key => k.key) ∘ fun c => (keyP c).event) = u :=
    List.map_id u
  rw [hid] at h₃
  exact Follows.readLine (c := System.load _ t) h₃ hn

/-- `Hi`, with something written on another terminal between the two letters and an interrupt without
a code. -/
theorem typed_text_is_read_hi :
    let d : Desk := ⟨State.init, System.unclearedTerms (fun _ _ => 0) fun _ => 0⟩
    let es : List Event := [.scan (scan 0x2A), .scan (scan 0x23), .scan (scan 0xA3), .scan (scan 0xAA),
      .op (.write 1 [ch 'x']), .scan ⟨0, 0x1C, keyR 0⟩, .scan (scan 0x17), .scan (scan 0x97),
      .scan (scan 0x1C), .scan (scan 0x9C)]
    (System.readResult false 1024
        ((run Desk.step (d.step (.op (.readStart 0))) es).terms.load 0)).map Prod.fst =
      some [ch 'H', ch 'i', ch '\n'] := by
  intro d es
  obtain ⟨-, -, c', hread, -⟩ := @typed_text_is_read d 0 rfl rfl ⟨rfl, rfl, rfl, rfl, rfl⟩
    [ch 'H', ch 'i'] (by decide) es (by decide) (by decide) 1024 (by decide)
  rw [hread]
  rfl

end Kb
end CoreOS
