import CoreOS.Lib.Filter
import CoreOS.Term.LineEditor

/-!
# Escape sequences

`term_write` puts a byte on the screen if `esc_parse` says so.  What is to be on the screen is a matter
of grammar, not of states: the text is what remains of a stream without its escapes, where an ESC that
is followed by `[` takes the arguments and the final byte with it.  `Shows` is that grammar.

`esc_parse` is a machine with a state for each terminal, and is fed a byte at a time, over any number
of writes, between which keys are handled and other terminals are used.  `resetting` is the machine
that decides the grammar.  The machine of the source, `parser`, differs from it in one transition: a
byte other than `[` does not lead out of the state after an ESC.  So it swallows a `[` that comes
later, and what follows it as far as an escape sequence goes.
-/

namespace CoreOS
namespace Term

open Console

/-- The escape character. -/
def esc : BitVec 8 := 0x1B

/-! ## The grammar -/

/-- The arguments of a sequence, complete or not: nothing, or a digit and then digits and
semicolons. -/
def Arguments (as : List (BitVec 8)) : Prop :=
  (∀ a ∈ as.head?, isnum a = true) ∧ ∀ a ∈ as, isnum a = true ∨ a = ch ';'

/-- A byte that ends a sequence with these arguments. -/
def Final (as : List (BitVec 8)) (f : BitVec 8) : Prop :=
  f ≠ esc ∧ isnum f = false ∧ (as ≠ [] → f ≠ ch ';')

/-- A stream, and the text it shows. -/
inductive Shows : List (BitVec 8) → List (BitVec 8) → Prop
  | nil : Shows [] []
  | char {b l v} : b ≠ esc → Shows l v → Shows (b :: l) (b :: v)
  | escape {l v} : l.head? ≠ some (ch '[') → Shows l v → Shows (esc :: l) v
  | sequence {as f l v} : Arguments as → Final as f → Shows l v →
      Shows (esc :: ch '[' :: (as ++ f :: l)) v
  | abandoned {as l v} : Arguments as → Shows (esc :: l) v →
      Shows (esc :: ch '[' :: (as ++ esc :: l)) v
  | unfinished {as} : Arguments as → Shows (esc :: ch '[' :: as) []

/-! ## The machines -/

/-- `esc_parse`, as a machine: its transitions, and the bytes it lets through. -/
def parser : Filter EscState (BitVec 8) where
  next q b :=
    if b = esc then .aEscape
    else match q with
      | .aEscape => if b = ch '[' then .aBracket else .aEscape
      | .aBracket => if isnum b then .argParse else .idle
      | .argParse => if isnum b = true ∨ b = ch ';' then .argParse else .idle
      | q => q
  keeps q b :=
    decide (b ≠ esc) && match q with
      | .aEscape => decide (b ≠ ch '[')
      | .aBracket => false
      | .argParse => false
      | _ => true

/-- The same machine, with the transition that is missing. -/
def resetting : Filter EscState (BitVec 8) where
  next q b := if q = .aEscape ∧ b ≠ esc ∧ b ≠ ch '[' then .idle else parser.next q b
  keeps := parser.keeps

section machines

variable {q : EscState} {b : BitVec 8}

theorem next_esc (q : EscState) : parser.next q esc = .aEscape := rfl

theorem keeps_esc (q : EscState) : resetting.keeps q esc = false := rfl

theorem resetting_next_esc (q : EscState) : resetting.next q esc = .aEscape :=
  if_neg fun h => h.2.1 rfl

theorem resetting_next_idle (hb : b ≠ esc) : resetting.next .idle b = .idle := by
  unfold resetting
  dsimp only
  rw [if_neg (by rintro ⟨h, -⟩; cases h), parser]
  exact if_neg hb

theorem keeps_idle (hb : b ≠ esc) : resetting.keeps .idle b = true := by
  rw [resetting, parser]
  simp [hb]

/-- What is shown after an ESC does not depend on what was before it. -/
theorem kept_esc (q : EscState) (l : List (BitVec 8)) :
    resetting.kept q (esc :: l) = resetting.kept .aEscape l := by
  rw [Filter.kept_cons_of_drops resetting (keeps_esc q), resetting_next_esc]

/-- After an ESC that no `[` follows, the machine is as good as idle. -/
theorem kept_aEscape {l : List (BitVec 8)} (hl : l.head? ≠ some (ch '[')) :
    resetting.kept .aEscape l = resetting.kept .idle l := by
  cases l with
  | nil => rfl
  | cons b l =>
    have hbracket : b ≠ ch '[' := fun h => hl (by rw [h]; rfl)
    by_cases hb : b = esc
    · subst hb
      rw [kept_esc, kept_esc]
    · have hkeeps : resetting.keeps .aEscape b = true := by
        rw [resetting, parser]
        simp [hb, hbracket]
      have hnext : resetting.next .aEscape b = .idle := if_pos ⟨rfl, hb, hbracket⟩
      rw [Filter.kept_cons_of_keeps resetting hkeeps,
        Filter.kept_cons_of_keeps resetting (keeps_idle hb), hnext, resetting_next_idle hb]

theorem kept_bracket (l : List (BitVec 8)) :
    resetting.kept .idle (esc :: ch '[' :: l) = resetting.kept .aBracket l := by
  rw [kept_esc, Filter.kept_cons_of_drops resetting (s := .aEscape) (a := ch '[') rfl]
  rfl

/-- The state inside a sequence, by the arguments so far. -/
def argState : List (BitVec 8) → EscState
  | [] => .aBracket
  | _ :: _ => .argParse

theorem keeps_argState (as : List (BitVec 8)) (b : BitVec 8) :
    resetting.keeps (argState as) b = false := by
  cases as with
  | nil => exact Bool.and_false _
  | cons a as => exact Bool.and_false _

theorem arguments_nil : Arguments [] := by
  refine ⟨?_, ?_⟩
  · rintro a ⟨⟩
  · rintro a ⟨⟩

/-- One more byte of arguments. -/
theorem arguments_concat {as : List (BitVec 8)} (has : Arguments as) {a : BitVec 8}
    (ha : isnum a = true ∨ as ≠ [] ∧ a = ch ';') : Arguments (as ++ [a]) := by
  refine ⟨?_, ?_⟩
  · cases as with
    | nil =>
      intro b hb
      cases hb
      exact ha.resolve_right fun h => h.1 rfl
    | cons c as => exact has.1
  · intro b hb
    rcases List.mem_append.mp hb with hb | hb
    · exact has.2 b hb
    · cases List.mem_singleton.mp hb
      exact ha.imp_right And.right

theorem ne_esc_of_isnum (hb : isnum b = true) : b ≠ esc := by
  rintro rfl
  exact absurd hb (by decide)

theorem next_argState {as : List (BitVec 8)} {a : BitVec 8}
    (ha : isnum a = true ∨ as ≠ [] ∧ a = ch ';') :
    resetting.next (argState as) a = .argParse := by
  have hesc : a ≠ esc := by
    rcases ha with ha | ⟨-, rfl⟩
    · exact ne_esc_of_isnum ha
    · decide
  cases as with
  | nil =>
    have hnum : isnum a = true := ha.resolve_right fun h => h.1 rfl
    simp [resetting, parser, argState, hesc, hnum]
  | cons c as =>
    have harg : isnum a = true ∨ a = ch ';' := ha.imp_right And.right
    simp [resetting, parser, argState, hesc, harg]

/-- The arguments leave nothing on the screen. -/
theorem kept_arguments {as : List (BitVec 8)} (has : Arguments as) (l : List (BitVec 8)) :
    resetting.kept .aBracket (as ++ l) = resetting.kept (argState as) l := by
  induction as using List.reverseRecOn generalizing l with
  | nil => rfl
  | append_singleton as a ih =>
    have hlast : isnum a = true ∨ as ≠ [] ∧ a = ch ';' := by
      cases as with
      | nil => exact .inl (has.1 a rfl)
      | cons c as => exact (has.2 a (by simp)).imp_right fun h => ⟨List.cons_ne_nil c as, h⟩
    have hinit : Arguments as := by
      refine ⟨fun b hb => has.1 b ?_, fun b hb => has.2 b (List.mem_append_left _ hb)⟩
      cases as with
      | nil => cases hb
      | cons c as => exact hb
    have hstate : argState (as ++ [a]) = .argParse := by
      cases as with
      | nil => rfl
      | cons c as => rfl
    rw [List.append_assoc, ih hinit, List.singleton_append,
      Filter.kept_cons_of_drops resetting (keeps_argState as a), next_argState hlast, hstate]

theorem next_final {as : List (BitVec 8)} {f : BitVec 8} (hf : Final as f) :
    resetting.next (argState as) f = .idle := by
  obtain ⟨hesc, hnum, hsemi⟩ := hf
  cases as with
  | nil => simp [resetting, parser, argState, hesc, hnum]
  | cons c as =>
    have hne : f ≠ ch ';' := hsemi (List.cons_ne_nil c as)
    simp [resetting, parser, argState, hesc, hnum, hne]

/-! ## The grammar is decided -/

theorem Shows.kept {l v : List (BitVec 8)} (h : Shows l v) : resetting.kept .idle l = v := by
  induction h with
  | nil => rfl
  | char hb _ ih =>
    rw [Filter.kept_cons_of_keeps resetting (keeps_idle hb), resetting_next_idle hb, ih]
  | escape hl _ ih => rw [kept_esc, kept_aEscape hl, ih]
  | @sequence as f l v has hf _ ih =>
    rw [kept_bracket, kept_arguments has,
      Filter.kept_cons_of_drops resetting (keeps_argState as f), next_final hf, ih]
  | @abandoned as l v has _ ih =>
    rw [kept_bracket, kept_arguments has, kept_esc, ← kept_esc .idle, ih]
  | @unfinished as has =>
    rw [kept_bracket, ← List.append_nil as, kept_arguments has]
    rfl

/-- Every stream shows what the machine keeps of it, in whichever state of a sequence the stream is
taken up. -/
theorem shows_kept (l : List (BitVec 8)) : Shows l (resetting.kept .idle l) ∧
    Shows (esc :: l) (resetting.kept .aEscape l) ∧
    ∀ as, Arguments as → Shows (esc :: ch '[' :: (as ++ l)) (resetting.kept (argState as) l) := by
  induction l with
  | nil =>
    refine ⟨.nil, .escape (by simp) .nil, fun as has => ?_⟩
    rw [List.append_nil]
    exact .unfinished has
  | cons b l ih =>
    obtain ⟨hidle, hescape, hargs⟩ := ih
    have hshows : Shows (b :: l) (resetting.kept .idle (b :: l)) := by
      by_cases hb : b = esc
      · subst hb
        rw [kept_esc]
        exact hescape
      · rw [Filter.kept_cons_of_keeps resetting (keeps_idle hb), resetting_next_idle hb]
        exact .char hb hidle
    refine ⟨hshows, ?_, fun as has => ?_⟩
    · by_cases hb : b = ch '['
      · subst hb
        rw [← kept_esc .idle, kept_bracket]
        exact hargs [] arguments_nil
      · have hhead : (b :: l).head? ≠ some (ch '[') := fun h => hb (Option.some.inj h)
        rw [kept_aEscape hhead]
        exact .escape hhead hshows
    · by_cases hb : b = esc
      · subst hb
        rw [kept_esc]
        exact .abandoned has hescape
      rw [Filter.kept_cons_of_drops resetting (keeps_argState as b)]
      by_cases harg : isnum b = true ∨ as ≠ [] ∧ b = ch ';'
      · have hrest := hargs (as ++ [b]) (arguments_concat has harg)
        have hstate : argState (as ++ [b]) = .argParse := by
          cases as with
          | nil => rfl
          | cons c as => rfl
        rw [hstate, List.append_assoc] at hrest
        rw [next_argState harg]
        exact hrest
      · have hf : Final as b := by
          refine ⟨hb, Bool.eq_false_iff.mpr fun h => harg (.inl h), fun hne h => ?_⟩
          exact harg (.inr ⟨hne, h⟩)
        rw [next_final hf]
        exact .sequence has hf hidle

/-- **The grammar gives each stream one text**, and the machine finds it. -/
theorem shows_iff {l v : List (BitVec 8)} : Shows l v ↔ resetting.kept .idle l = v := by
  constructor
  · exact Shows.kept
  · rintro rfl
    exact (shows_kept l).1

end machines

/-! ## The machine of the source -/

/-- A byte that does not end the state after an ESC. -/
def Ordinary (b : BitVec 8) : Prop := b ≠ esc ∧ b ≠ ch '['

/-- There is a `[` after an ESC, later than right behind it and with no other ESC or `[` between. -/
def StaleEscape (l : List (BitVec 8)) : Prop :=
  ∃ pre mid post, l = pre ++ esc :: mid ++ ch '[' :: post ∧ mid ≠ [] ∧ ∀ b ∈ mid, Ordinary b

theorem StaleEscape.append {l : List (BitVec 8)} (h : StaleEscape l) (l' : List (BitVec 8)) :
    StaleEscape (l ++ l') := by
  obtain ⟨pre, mid, post, rfl, hmid⟩ := h
  refine ⟨pre, mid, post ++ l', ?_, hmid⟩
  rw [List.append_assoc, List.cons_append]

section machines

variable {q g : EscState} {b : BitVec 8}

/-- The machine of the source is where the other is, or the other is idle. -/
theorem next_lags (h : q = g ∨ g = .idle) :
    parser.next q b = resetting.next g b ∨ resetting.next g b = .idle := by
  by_cases hb : b = esc
  · subst hb
    exact .inl (resetting_next_esc g).symm
  · rcases h with rfl | rfl
    · by_cases hout : q = .aEscape ∧ b ≠ esc ∧ b ≠ ch '['
      · exact .inr (if_pos hout)
      · exact .inl (if_neg hout).symm
    · exact .inr (resetting_next_idle hb)

theorem keeps_lags (h : q = g ∨ g = .idle) (hkeeps : parser.keeps q b = true) :
    resetting.keeps g b = true := by
  rcases h with rfl | rfl
  · exact hkeeps
  · refine keeps_idle fun hb => ?_
    rw [parser, hb] at hkeeps
    exact Bool.noConfusion hkeeps

theorem next_aEscape (hb : Ordinary b) : parser.next .aEscape b = .aEscape := by
  unfold parser
  exact (if_neg hb.1).trans (if_neg hb.2)

/-- A state of the source, after a byte other than ESC, is that after an ESC only if it was so
before. -/
theorem next_ne_aEscape (hq : q ≠ .aEscape) (hb : b ≠ esc) : parser.next q b ≠ .aEscape := by
  unfold parser
  dsimp only
  rw [if_neg hb]
  cases q with
  | aEscape => exact absurd rfl hq
  | aBracket =>
    dsimp only
    split <;> exact EscState.noConfusion
  | argParse =>
    dsimp only
    split <;> exact EscState.noConfusion
  | idle => exact EscState.noConfusion
  | partialFinish => exact EscState.noConfusion

/-- Where the two machines are after `l`: in one state, or the source is after an ESC that is over. -/
inductive Trail (l : List (BitVec 8)) (q : EscState) : EscState → Prop
  | same : (q = .aEscape → ∃ pre, l = pre ++ [esc]) → Trail l q q
  | stale (pre mid) : q = .aEscape → l = pre ++ esc :: mid → mid ≠ [] → (∀ b ∈ mid, Ordinary b) →
      Trail l q .idle

/-- **One byte.** -/
theorem Trail.next {l : List (BitVec 8)} (h : Trail l q g) (b : BitVec 8)
    (hl : ¬ StaleEscape (l ++ [b])) :
    Trail (l ++ [b]) (parser.next q b) (resetting.next g b) := by
  by_cases hesc : b = esc
  · subst hesc
    rw [next_esc, resetting_next_esc]
    exact .same fun _ => ⟨l, rfl⟩
  cases h with
  | same hq =>
    by_cases hq' : q = .aEscape
    · subst hq'
      obtain ⟨pre, rfl⟩ := hq rfl
      by_cases hbracket : b = ch '['
      · subst hbracket
        exact .same fun h => by cases h
      · have hnext : resetting.next .aEscape b = .idle := if_pos ⟨rfl, hesc, hbracket⟩
        rw [hnext]
        refine .stale pre [b] (next_aEscape ⟨hesc, hbracket⟩) ?_ (by simp) ?_
        · rw [List.append_assoc, List.singleton_append]
        · intro c hc
          cases List.mem_singleton.mp hc
          exact ⟨hesc, hbracket⟩
    · have hnext : resetting.next q b = parser.next q b := if_neg fun hout => hq' hout.1
      rw [hnext]
      exact .same fun h => absurd h (next_ne_aEscape hq' hesc)
  | stale pre mid hq hpre hmid hplain =>
    subst hq hpre
    by_cases hbracket : b = ch '['
    · subst hbracket
      exact absurd ⟨pre, mid, [], rfl, hmid, hplain⟩ hl
    · rw [resetting_next_idle hesc]
      refine .stale pre (mid ++ [b]) (next_aEscape ⟨hesc, hbracket⟩) ?_ (by simp) ?_
      · rw [List.append_assoc, List.cons_append]
      · intro c hc
        rcases List.mem_append.mp hc with hc | hc
        · exact hplain c hc
        · cases List.mem_singleton.mp hc
          exact ⟨hesc, hbracket⟩

/-- **A stream.** -/
theorem trail_run (l : List (BitVec 8)) (hl : ¬ StaleEscape l) :
    Trail l (parser.run .idle l) (resetting.run .idle l) := by
  induction l using List.reverseRecOn with
  | nil => exact .same fun h => by cases h
  | append_singleton l b ih =>
    rw [Filter.run_concat, Filter.run_concat]
    exact (ih fun h => hl (h.append [b])).next b hl

/-- An ESC that is over, as the source has it and as the grammar has it. -/
theorem run_stale (q g : EscState) (pre : List (BitVec 8)) {mid : List (BitVec 8)}
    (hmid : mid ≠ []) (hplain : ∀ b ∈ mid, Ordinary b) :
    parser.run q (pre ++ esc :: mid) = .aEscape ∧
      resetting.run g (pre ++ esc :: mid) = .idle := by
  have hstay : ∀ l : List (BitVec 8), (∀ b ∈ l, Ordinary b) →
      parser.run .aEscape l = .aEscape ∧ resetting.run .idle l = .idle := by
    intro l hl
    induction l with
    | nil => exact ⟨rfl, rfl⟩
    | cons b l ih =>
      have hb := hl b List.mem_cons_self
      rw [Filter.run_cons, Filter.run_cons, next_aEscape hb, resetting_next_idle hb.1]
      exact ih fun c hc => hl c (List.mem_cons_of_mem b hc)
  rw [Filter.run_append, Filter.run_append, Filter.run_cons, Filter.run_cons, next_esc,
    resetting_next_esc]
  cases mid with
  | nil => exact absurd rfl hmid
  | cons b mid =>
    have hb := hplain b List.mem_cons_self
    have hnext : resetting.next .aEscape b = .idle := if_pos ⟨rfl, hb.1, hb.2⟩
    obtain ⟨hparser, hresetting⟩ := hstay mid fun c hc => hplain c (List.mem_cons_of_mem b hc)
    rw [Filter.run_cons, Filter.run_cons, next_aEscape hb, hnext]
    exact ⟨hparser, hresetting⟩

/-- **The source follows the grammar exactly on the streams without a stale escape.** -/
theorem shows_parser_iff (l : List (BitVec 8)) :
    Shows l (parser.kept .idle l) ↔ ¬ StaleEscape l := by
  rw [shows_iff, eq_comm, Filter.kept_eq_iff_agree (R := fun q g => q = g ∨ g = .idle)
    (fun _ _ _ h => next_lags h) (fun _ _ _ h => keeps_lags h) (.inl rfl)]
  constructor
  · rintro hagree ⟨pre, mid, post, hl, hmid, hplain⟩
    obtain ⟨hparser, hresetting⟩ := run_stale .idle .idle pre hmid hplain
    have hkeeps := hagree (pre ++ esc :: mid) (ch '[') post hl
    rw [hparser, hresetting] at hkeeps
    exact absurd hkeeps (by decide)
  · intro hstale pre b post hl
    have hpre : ¬ StaleEscape (pre ++ [b]) := by
      intro h
      apply hstale
      rw [hl, ← List.singleton_append, ← List.append_assoc]
      exact h.append post
    have htrail := trail_run pre fun h => hpre (h.append [b])
    generalize parser.run .idle pre = q, resetting.run .idle pre = g at htrail
    cases htrail with
    | same hq => rfl
    | stale p mid hq hp hmid hplain =>
      subst hq hp
      have hbracket : b ≠ ch '[' := by
        rintro rfl
        exact hpre ⟨p, mid, [], rfl, hmid, hplain⟩
      simp [resetting, parser, hbracket]

/-- So it can be decided whether a stream has one. -/
instance (l : List (BitVec 8)) : Decidable (StaleEscape l) :=
  decidable_of_iff (resetting.kept .idle l ≠ parser.kept .idle l)
    (by rw [Ne, ← shows_iff, shows_parser_iff, not_not])

end machines

/-! ## The terminal -/

/-- The loop of `term_write`: the bytes it keeps are those it gives to `putc`. -/
def termLoop : Filter Console (BitVec 8) where
  next := writeByte
  keeps c b := (c.escParse b).1

/-- The bytes of an operation that are written to terminal `t`. -/
def Op.bytesFor (t : Fin termNum) : Op → List (BitVec 8)
  | .write u bytes => if u = t then bytes else []
  | _ => []

/-- The bytes written to terminal `t`, in all calls of `term_write` together. -/
def written (t : Fin termNum) (ops : List Op) : List (BitVec 8) := ops.flatMap (Op.bytesFor t)

/-- The bytes that `term_write` puts on the screen of terminal `t`. -/
def displayed (t : Fin termNum) : System → List Op → List (BitVec 8)
  | _, [] => []
  | s, o :: ops => termLoop.kept (s.load t) (o.bytesFor t) ++ displayed t (step s o) ops

section state

variable {c : Console} {b : BitVec 8}

theorem Console.Draws.state_eq {f : Console → Console} (hf : Draws f) (c : Console) :
    (f c).state = c.state := by
  rw [hf.eq_withLine c]
  rfl

theorem state_pushArg (c : Console) : c.pushArg.state = c.state := by
  rw [pushArg]
  split
  · rfl
  · rfl

theorem state_argParse (hc : c.state = .argParse) : (c.argParse b).state =
    if isnum b = true ∨ b = ch ';' then .argParse else .idle := by
  rw [argParse]
  dsimp only
  by_cases hnum : isnum b = true
  · have harg : isnum b = true ∨ b = ch ';' := .inl hnum
    rw [if_pos hnum, if_pos harg]
    split
    · exact hc
    · exact hc
  · rw [if_neg hnum]
    by_cases hsemi : b = ch ';'
    · have harg : isnum b = true ∨ b = ch ';' := .inr hsemi
      rw [if_neg (not_not_intro hsemi), if_pos harg]
      exact (state_pushArg c).trans hc
    · have harg : ¬ (isnum b = true ∨ b = ch ';') := fun h => h.elim hnum hsemi
      rw [if_pos hsemi, if_neg harg]
      rfl

/-- **`esc_parse` is the machine.** -/
theorem escParse_spec (c : Console) (b : BitVec 8) :
    (c.escParse b).1 = parser.keeps c.state b ∧
      (c.escParse b).2.state = parser.next c.state b := by
  by_cases hesc : b = esc
  · subst hesc
    exact ⟨rfl, rfl⟩
  have hesc' : ¬ b = 0x1B := hesc
  rw [escParse, parser]
  dsimp only
  rw [if_neg hesc', if_neg hesc]
  cases hc : c.state with
  | aEscape =>
    by_cases hbracket : b = ch '['
    · rw [if_pos ⟨rfl, hbracket⟩, if_pos hbracket]
      simp [hbracket]
    · rw [if_neg fun h => hbracket h.2, if_neg EscState.noConfusion, if_neg EscState.noConfusion,
        if_neg hbracket]
      simp [hesc, hbracket, hc]
  | aBracket =>
    rw [if_neg fun h => EscState.noConfusion h.1, if_pos rfl]
    by_cases hnum : isnum b = true
    · rw [if_pos hnum, if_pos hnum]
      refine ⟨(Bool.and_false _).symm, ?_⟩
      refine (state_argParse (c := { c with argLen := 0, bufLen := 0, state := .argParse }) rfl).trans ?_
      exact if_pos (.inl hnum)
    · rw [if_neg hnum, if_neg hnum]
      exact ⟨(Bool.and_false _).symm, rfl⟩
  | argParse =>
    rw [if_neg fun h => EscState.noConfusion h.1, if_neg EscState.noConfusion, if_pos rfl]
    exact ⟨(Bool.and_false _).symm, state_argParse hc⟩
  | idle =>
    rw [if_neg fun h => EscState.noConfusion h.1, if_neg EscState.noConfusion,
      if_neg EscState.noConfusion]
    exact ⟨by simp [hesc], hc⟩
  | partialFinish =>
    rw [if_neg fun h => EscState.noConfusion h.1, if_neg EscState.noConfusion,
      if_neg EscState.noConfusion]
    exact ⟨by simp [hesc], hc⟩

theorem state_writeByte (c : Console) (b : BitVec 8) :
    (c.writeByte b).state = parser.next c.state b := by
  rw [← (escParse_spec c b).2, writeByte]
  dsimp only
  split
  · exact (draws_putc b).state_eq _
  · rfl

/-- What the loop keeps is what the machine keeps. -/
theorem kept_termLoop (c : Console) (bytes : List (BitVec 8)) :
    termLoop.kept c bytes = parser.kept c.state bytes ∧
      (c.termWrite bytes).state = parser.run c.state bytes := by
  have hnext : ∀ (c : Console) q b, c.state = q → (c.writeByte b).state = parser.next q b := by
    rintro c q b rfl
    exact state_writeByte c b
  refine ⟨Filter.kept_eq_of_simulates (R := fun (c : Console) q => c.state = q) hnext ?_ rfl bytes,
    Filter.run_simulates (F := termLoop) (R := fun (c : Console) q => c.state = q) hnext rfl bytes⟩
  rintro c q b rfl
  exact (escParse_spec c b).1

/-! ## Everything else -/

/-- A loop of stores leaves the state alone. -/
theorem state_foldl {α : Type*} {f : Console → α → Console} (hf : ∀ c a, (f c a).state = c.state)
    (l : List α) (c : Console) : (l.foldl f c).state = c.state := by
  induction l generalizing c with
  | nil => rfl
  | cons a l ih => exact (ih (f c a)).trans (hf c a)

theorem state_iterate {f : Console → Console} (hf : ∀ c, (f c).state = c.state) (n : ℕ)
    (c : Console) : (f^[n] c).state = c.state :=
  Function.Iterate.rec (fun c' : Console => c'.state = c.state) rfl
    (fun c' hc' => (hf c').trans hc') n

theorem state_insertCh (c : Console) (b : BitVec 8) : (c.insertCh b).state = c.state := by
  have hgap : c.openGap.state = c.state := by
    refine state_foldl ?_ _ c
    exact fun _ _ => rfl
  exact hgap

theorem state_removeCh (c : Console) : c.removeCh.state = c.state := by
  have hgap : c.closeGap.state = c.state := by
    refine state_foldl ?_ _ c
    exact fun _ _ => rfl
  exact hgap

theorem state_putRest (c : Console) : c.putRest.state = c.state :=
  state_foldl (fun c _ => (draws_putc _).state_eq c) _ c

theorem state_addch (c : Console) (b : BitVec 8) : (c.addch b).state = c.state := by
  rw [addch]
  dsimp only
  split
  · split
    · exact state_insertCh c b
    · rw [state_iterate draws_back.state_eq, state_putRest, (draws_putc b).state_eq, state_insertCh]
  · rfl

theorem state_delch (c : Console) : c.delch.state = c.state := by
  rw [Console.delch]
  dsimp only
  split
  · split
    · exact state_removeCh c
    · rw [(draws_setpos _ _).state_eq, (draws_putc _).state_eq, state_putRest, draws_back.state_eq,
        state_removeCh]
  · rfl

theorem state_stepBack (c : Console) : c.stepBack.state = c.state :=
  draws_back.state_eq { c with termCurpos := c.termCurpos - 1 }

theorem state_stepForward (c : Console) : c.stepForward.state = c.state :=
  draws_forward.state_eq { c with termCurpos := c.termCurpos + 1 }

theorem state_wordBefore {f : Console → Console} (hf : ∀ c, (f c).state = c.state) (c : Console) :
    (wordBefore f c).state = c.state := by
  rw [wordBefore]
  split
  · rfl
  · exact whileBefore_keeps (P := fun c' => c'.state = c.state) _
      (fun c' hc' _ => (hf c').trans hc') _ rfl

theorem state_wordAfter (c : Console) : (wordAfter stepForward c).state = c.state := by
  rw [wordAfter]
  split
  · rfl
  · exact whileAfter_keeps (P := fun c' => c'.state = c.state) _
      (fun c' hc' _ => (state_stepForward c').trans hc') _ rfl

theorem state_ctrlKey (c : Console) (key : BitVec 8) : (c.ctrlKey key).state = c.state := by
  apply ctrlKey_cases (P := fun c' => c'.state = c.state) key rfl
  · rw [clearAbove, state_iterate draws_forward.state_eq, state_iterate draws_scroll.state_eq,
      state_iterate draws_back.state_eq]
  · exact fun _ => state_stepBack c
  · exact fun _ => state_stepForward c
  · exact state_iterate state_stepBack _ c
  · exact state_iterate state_stepForward _ c
  · exact state_wordBefore state_delch c
  · exact state_iterate state_delch _ c
  · exact state_delch c
  · exact fun _ => (draws_puts _).state_eq c
  · rfl

/-- **A key does not touch the parser.** -/
theorem state_handleKey (c : Console) (k : Key) : (c.handleKey k).state = c.state := by
  rw [handleKey]
  split
  · exact state_addch { c with termCurpos := c.termBufCount } k.key
  · apply lineKey_cases (P := fun c' => c'.state = c.state) k rfl
    · exact fun key _ => state_ctrlKey c key
    · exact altKey_cases (P := fun c' => c'.state = c.state) k.key rfl
        (state_wordBefore state_stepBack c) (state_wordAfter c)
    · exact state_addch c k.key

theorem state_endLine (c : Console) : c.endLine.state = c.state := by
  rw [endLine]
  dsimp only
  split
  · rfl
  · exact (draws_putc (ch '\n')).state_eq { c with reading := false }

/-- Neither does the end of a read. -/
theorem state_readEnd (canon : Bool) (nbytes : ℕ) (c : Console) :
    (System.readEnd canon nbytes c).state = c.state := by
  rw [System.readEnd, System.readResult, readCanon, readLine]
  split_ifs
  · rfl
  · exact state_delch { c with reading := false, termCurpos := 1 }
  · rfl
  · exact state_endLine c

end state

/-! ## Runs -/

/-- **One operation** takes the parser of terminal `t` over the bytes written to it. -/
theorem state_step (s : System) (t : Fin termNum) (o : Op) :
    ((step s o).data t).state = parser.run (s.data t).state (o.bytesFor t) := by
  have hon : ∀ (s : System) (u : Fin termNum) {f : Console → Console},
      (∀ c, (f c).state = c.state) → ((s.on u f).data t).state = (s.data t).state := by
    intro s u f hf
    show (Function.update s.data u (f (s.load u)).toData t).state = _
    by_cases hu : t = u
    · subst hu
      rw [Function.update_self]
      exact hf (s.load t)
    · rw [Function.update_of_ne hu]
  cases o with
  | write u bytes =>
    show (Function.update s.data u _ t).state = parser.run _ (if u = t then bytes else [])
    by_cases hu : u = t
    · subst hu
      rw [Function.update_self, if_pos rfl]
      exact (kept_termLoop (s.load u) bytes).2
    · rw [Function.update_of_ne (Ne.symm hu), if_neg hu]
      rfl
  | readStart u => exact hon s u fun _ => rfl
  | readEnd u canon nbytes => exact hon s u (state_readEnd canon nbytes)
  | key k =>
    show ((s.termKeyHandler k).data t).state = (s.data t).state
    cases hk : System.switchKey k with
    | some ind => exact congrArg (·.state) (s.undrawn_termKeyHandler_of_switch hk t).1
    | none =>
      rw [(s.data_termKeyHandler hk).1]
      exact hon s s.curTermInd fun c => state_handleKey c k
  | switchTerm ind => exact congrArg (·.state) (s.undrawn_switchTerm ind t)

/-- Over a whole run it is one machine on one stream. -/
theorem displayed_eq (t : Fin termNum) (s : System) (ops : List Op) :
    displayed t s ops = parser.kept (s.data t).state (written t ops) := by
  induction ops generalizing s with
  | nil => rfl
  | cons o ops ih =>
    rw [displayed, written, List.flatMap_cons, Filter.kept_append, ← state_step, ih]
    exact congrArg (· ++ _) (kept_termLoop (s.load t) (o.bytesFor t)).1

/-- **The parser accepts exactly its grammar**, up to stale escapes.  The parser of terminal `t` is
idle.  In every run the bytes that `term_write` puts on its screen are the text shown by the bytes
written to it, if and only if these have no stale escape. -/
theorem displayed_shows_iff (s : System) (t : Fin termNum) (hidle : (s.data t).state = .idle)
    (ops : List Op) : Shows (written t ops) (displayed t s ops) ↔ ¬ StaleEscape (written t ops) := by
  rw [displayed_eq, hidle]
  exact shows_parser_iff _

/-- A sequence that is split over two writes, with a key between. -/
theorem displayed_shows_split_write :
    let s := System.unclearedTerms (fun _ _ => 0) fun _ => 0
    let ops : List Op := [.write 0 [ch 'a', esc, ch '['], .key ⟨0, ch 'z'⟩,
      .write 0 [ch '4', ch ';', ch 'f', ch 'b']]
    Shows (written 0 ops) (displayed 0 s ops) := by
  intro s ops
  exact (displayed_shows_iff s 0 rfl ops).mpr (by decide +kernel)

/-- After ESC and `x`, a `[` is not shown. -/
theorem displayed_stale_escape :
    let s := System.unclearedTerms (fun _ _ => 0) fun _ => 0
    let ops : List Op := [.write 0 [esc, ch 'x', ch '[', ch 'y']]
    (s.data 0).state = .idle ∧ displayed 0 s ops = [ch 'x'] ∧
      Shows (written 0 ops) [ch 'x', ch '[', ch 'y'] ∧
      ¬ Shows (written 0 ops) (displayed 0 s ops) := by
  intro s ops
  have hshown : displayed 0 s ops = [ch 'x'] := by decide +kernel
  have hshows : Shows (written 0 ops) [ch 'x', ch '[', ch 'y'] := shows_iff.mpr (by decide)
  refine ⟨rfl, hshown, hshows, fun h => ?_⟩
  rw [hshown] at h
  exact absurd (hshows.kept.symm.trans h.kept) (by decide)

end Term
end CoreOS
