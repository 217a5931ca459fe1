import Mathlib.Data.BitVec
import Mathlib.Tactic.Common

/-!
# Words in a byte memory

A memory is a function from addresses to bytes, and the addresses wrap around.  A word takes four
bytes, the least significant first, and may begin at any address.

Where a byte is, relative to a block, is a difference of addresses: `(x - a).toNat` is the position of
`x` in the block that begins at `a`.  A byte is in the block if its position is less than the size,
and with this no case distinction about wrapping around is needed anywhere.

The loads and stores are those of single words and of rows of words one after the other.  A row that
has been stored is loaded again (`loadWords_storeWords`), a store leaves alone what is outside of it
(`storeWords_of_outside`), and a store of one word of a row replaces that word
(`loadWords_storeWord`).
-/

namespace CoreOS

/-- A memory with addresses of `w` bits. -/
abbrev Memory (w : ℕ) : Type := BitVec w → BitVec 8

namespace Memory

variable {w : ℕ}

/-- The word at an address. -/
def loadWord (m : Memory w) (a : BitVec w) : BitVec 32 := m (a + 3) ++ m (a + 2) ++ m (a + 1) ++ m a

/-- Store a word at an address. -/
def storeWord (m : Memory w) (a : BitVec w) (v : BitVec 32) : Memory w := fun x =>
  if (x - a).toNat < 4 then v.extractLsb' (8 * (x - a).toNat) 8 else m x

/-- The row of `n` words from an address on. -/
def loadWords (m : Memory w) (a : BitVec w) : ℕ → List (BitVec 32)
  | 0 => []
  | n + 1 => m.loadWord a :: loadWords m (a + 4) n

/-- Store a row of words from an address on. -/
def storeWords (m : Memory w) (a : BitVec w) : List (BitVec 32) → Memory w
  | [] => m
  | v :: vs => storeWords (m.storeWord a v) (a + 4) vs

/-- Store the bytes `src 0`, …, `src (n - 1)` from an address on. -/
def put (m : Memory w) (a : BitVec w) (n : ℕ) (src : ℕ → BitVec 8) : Memory w := fun x =>
  if (x - a).toNat < n then src (x - a).toNat else m x

/-- Two memories have the same bytes in the block of `n` bytes that begins at `a`. -/
def SameOn (m m' : Memory w) (a : BitVec w) (n : ℕ) : Prop :=
  ∀ x : BitVec w, (x - a).toNat < n → m' x = m x

variable {m m' m'' : Memory w} {a b x : BitVec w} {n : ℕ}

/-! ## Positions -/

/-- A byte of a block, by its distance from the beginning. -/
theorem toNat_add_sub_le (a : BitVec w) (i : ℕ) : (a + BitVec.ofNat w i - a).toNat ≤ i := by
  rw [add_sub_cancel_left, BitVec.toNat_ofNat]
  exact Nat.mod_le _ _

/-- The position in a block that begins earlier. -/
theorem toNat_sub_le_add (x a : BitVec w) (k : ℕ) :
    (x - a).toNat ≤ (x - (a + BitVec.ofNat w k)).toNat + k := by
  have hsum : x - a = (x - (a + BitVec.ofNat w k)) + BitVec.ofNat w k := by
    rw [sub_add_eq_sub_sub, sub_add_cancel]
  rw [hsum, BitVec.toNat_add, BitVec.toNat_ofNat]
  exact (Nat.mod_le _ _).trans (Nat.add_le_add_left (Nat.mod_le _ _) _)

/-- The position in a block that begins later. -/
theorem toNat_sub_add {k : ℕ} (h : k ≤ (x - a).toNat) :
    (x - (a + BitVec.ofNat w k)).toNat = (x - a).toNat - k := by
  have hk : (BitVec.ofNat w k).toNat = k := by
    rw [BitVec.toNat_ofNat, Nat.mod_eq_of_lt (h.trans_lt (x - a).isLt)]
  have hle : BitVec.ofNat w k ≤ x - a := by
    rw [BitVec.le_def, hk]
    exact h
  rw [sub_add_eq_sub_sub, BitVec.toNat_sub_of_le hle, hk]

/-! ## Blocks -/

/-- A word depends on its four bytes only. -/
theorem loadWord_congr (h : SameOn m m' a 4) : loadWord m' a = loadWord m a := by
  have hbyte : ∀ i, i < 4 → m' (a + BitVec.ofNat w i) = m (a + BitVec.ofNat w i) := fun i hi =>
    h _ ((toNat_add_sub_le a i).trans_lt hi)
  have h₀ : m' a = m a := by
    have hzero := hbyte 0 (by omega)
    rwa [BitVec.add_zero] at hzero
  have h₁ : m' (a + 1) = m (a + 1) := hbyte 1 (by omega)
  have h₂ : m' (a + 2) = m (a + 2) := hbyte 2 (by omega)
  have h₃ : m' (a + 3) = m (a + 3) := hbyte 3 (by omega)
  rw [loadWord, loadWord, h₀, h₁, h₂, h₃]

/-- A row of words depends on its block only. -/
theorem loadWords_congr (h : SameOn m m' a (4 * n)) : loadWords m' a n = loadWords m a n := by
  induction n generalizing a with
  | zero => rfl
  | succ n ih =>
    have hhead : loadWord m' a = loadWord m a := loadWord_congr fun x hx => h x (by omega)
    have htail : SameOn m m' (a + 4) (4 * n) := by
      intro x hx
      have hle : (x - a).toNat ≤ (x - (a + 4)).toNat + 4 := toNat_sub_le_add x a 4
      exact h x (by omega)
    rw [loadWords, loadWords, hhead, ih htail]

theorem storeWord_of_outside (h : 4 ≤ (x - a).toNat) (v : BitVec 32) :
    m.storeWord a v x = m x :=
  if_neg (Nat.not_lt_of_le h)

/-- **A row of words is stored nowhere else.** -/
theorem storeWords_of_outside (vs : List (BitVec 32)) (h : 4 * vs.length ≤ (x - a).toNat) :
    m.storeWords a vs x = m x := by
  induction vs generalizing m a with
  | nil => rfl
  | cons v vs ih =>
    rw [List.length_cons] at h
    have hfour : 4 ≤ (x - a).toNat := by omega
    have hrest : (x - (a + 4)).toNat = (x - a).toNat - 4 := toNat_sub_add hfour
    rw [storeWords, ih (by omega), storeWord_of_outside hfour]

/-! ## Reading back -/

/-- A word is its bytes. -/
theorem append_extractLsb' (v : BitVec 32) :
    v.extractLsb' 24 8 ++ v.extractLsb' 16 8 ++ v.extractLsb' 8 8 ++ v.extractLsb' 0 8 = v := by
  rw [BitVec.extractLsb'_append_extractLsb'_eq_extractLsb' (by rfl),
    BitVec.extractLsb'_append_extractLsb'_eq_extractLsb' (by rfl),
    BitVec.extractLsb'_append_extractLsb'_eq_extractLsb' (by rfl)]
  exact BitVec.extractLsb'_eq_self

theorem loadWord_storeWord (hw : 4 ≤ 2 ^ w) (m : Memory w) (a : BitVec w) (v : BitVec 32) :
    (m.storeWord a v).loadWord a = v := by
  have hbyte : ∀ i, i < 4 → m.storeWord a v (a + BitVec.ofNat w i) = v.extractLsb' (8 * i) 8 := by
    intro i hi
    have hpos : (a + BitVec.ofNat w i - a).toNat = i := by
      rw [add_sub_cancel_left, BitVec.toNat_ofNat, Nat.mod_eq_of_lt (hi.trans_le hw)]
    rw [storeWord, hpos, if_pos hi]
  have h₀ : m.storeWord a v a = v.extractLsb' 0 8 := by
    have hzero := hbyte 0 (by omega)
    rwa [BitVec.add_zero] at hzero
  have h₁ : m.storeWord a v (a + 1) = v.extractLsb' 8 8 := hbyte 1 (by omega)
  have h₂ : m.storeWord a v (a + 2) = v.extractLsb' 16 8 := hbyte 2 (by omega)
  have h₃ : m.storeWord a v (a + 3) = v.extractLsb' 24 8 := hbyte 3 (by omega)
  rw [loadWord, h₀, h₁, h₂, h₃]
  exact append_extractLsb' v

/-- The last store counts. -/
theorem storeWord_storeWord (m : Memory w) (a : BitVec w) (u v : BitVec 32) :
    (m.storeWord a u).storeWord a v = m.storeWord a v := by
  ext x : 1
  by_cases hx : (x - a).toNat < 4
  · simp only [storeWord, if_pos hx]
  · simp only [storeWord, if_neg hx]

/-- A byte before a block that ends where the memory does, or earlier. -/
theorem le_toNat_sub_add {k : ℕ} (hn : k + n ≤ 2 ^ w) (hx : (x - a).toNat < k) :
    n ≤ (x - (a + BitVec.ofNat w k)).toNat := by
  have hlt : k < 2 ^ w ∨ n = 0 := by omega
  rcases hlt with hlt | rfl
  · have hk : (BitVec.ofNat w k).toNat = k := by
      rw [BitVec.toNat_ofNat, Nat.mod_eq_of_lt hlt]
    rw [sub_add_eq_sub_sub, BitVec.toNat_sub, hk, Nat.mod_eq_of_lt (by omega)]
    omega
  · exact Nat.zero_le _

/-- A word behind the one that is stored. -/
theorem loadWord_storeWord_of_le {k : ℕ} (hk : 4 ≤ k) (hw : k + 4 ≤ 2 ^ w) (m : Memory w) (a : BitVec w)
    (v : BitVec 32) :
    (m.storeWord a v).loadWord (a + BitVec.ofNat w k) = m.loadWord (a + BitVec.ofNat w k) := by
  refine loadWord_congr fun x hx => storeWord_of_outside (Nat.le_of_not_lt fun hlt => ?_) v
  exact absurd hx (Nat.not_lt_of_le (le_toNat_sub_add hw (hlt.trans_le hk)))

/-- **A row of words that has been stored is loaded again.** -/
theorem loadWords_storeWords (m : Memory w) (a : BitVec w) (vs : List (BitVec 32))
    (hw : 4 * vs.length ≤ 2 ^ w) : (m.storeWords a vs).loadWords a vs.length = vs := by
  induction vs generalizing m a with
  | nil => rfl
  | cons v vs ih =>
    rw [List.length_cons] at hw
    have hhead : ((m.storeWord a v).storeWords (a + 4) vs).loadWord a = v := by
      rw [loadWord_congr (m := m.storeWord a v), loadWord_storeWord (by omega)]
      intro x hx
      exact storeWords_of_outside vs (le_toNat_sub_add (k := 4) (by omega) hx)
    rw [storeWords, List.length_cons, loadWords, hhead, ih _ _ (by omega)]

/-- What is stored at a byte depends on what was there only if the row does not reach it. -/
theorem storeWords_congr (vs : List (BitVec 32)) (h : m' x = m x) :
    m'.storeWords a vs x = m.storeWords a vs x := by
  induction vs generalizing m m' a with
  | nil => exact h
  | cons v vs ih =>
    rw [storeWords, storeWords]
    refine ih ?_
    rw [storeWord, storeWord, h]

/-- **A push**: a row can be stored from its other end. -/
theorem storeWord_storeWords (m : Memory w) (a : BitVec w) (v : BitVec 32) (vs : List (BitVec 32))
    (hw : 4 * (vs.length + 1) ≤ 2 ^ w) :
    (m.storeWords (a + 4) vs).storeWord a v = m.storeWords a (v :: vs) := by
  ext x : 1
  rw [storeWords]
  by_cases hx : (x - a).toNat < 4
  · have hout : 4 * vs.length ≤ (x - (a + 4)).toNat := le_toNat_sub_add (k := 4) (by omega) hx
    rw [storeWords_of_outside vs hout, storeWord, storeWord, if_pos hx, if_pos hx]
  · rw [storeWord_of_outside (Nat.le_of_not_lt hx)]
    exact (storeWords_congr vs (storeWord_of_outside (Nat.le_of_not_lt hx) v)).symm

/-- **A store of one word of a row.** -/
theorem loadWords_storeWord (hw : 4 * n ≤ 2 ^ w) {k : ℕ} (hk : k < n) (m : Memory w) (a : BitVec w)
    (v : BitVec 32) : (m.storeWord (a + BitVec.ofNat w (4 * k)) v).loadWords a n =
      (m.loadWords a n).set k v := by
  induction n generalizing a k with
  | zero => exact absurd hk (Nat.not_lt_zero k)
  | succ n ih =>
    cases k with
    | zero =>
      rw [Nat.mul_zero, BitVec.add_zero, loadWords, loadWords, List.set_cons_zero,
        loadWord_storeWord (by omega), loadWords_congr (m := m)]
      intro x hx
      refine storeWord_of_outside (Nat.le_of_not_lt fun hlt => ?_) v
      exact absurd hx (Nat.not_lt_of_le (le_toNat_sub_add (k := 4) (by omega) hlt))
    | succ k =>
      have hhead : (m.storeWord (a + BitVec.ofNat w (4 * (k + 1))) v).loadWord a = m.loadWord a := by
        refine loadWord_congr fun x hx => storeWord_of_outside ?_ v
        exact le_toNat_sub_add (by omega) (hx.trans_le (by omega))
      have haddr : a + BitVec.ofNat w (4 * (k + 1)) = a + 4 + BitVec.ofNat w (4 * k) := by
        rw [Nat.mul_succ, Nat.add_comm (4 * k) 4, BitVec.ofNat_add, add_assoc]
        rfl
      rw [loadWords, loadWords, List.set_cons_succ, hhead, haddr, ih (by omega) (by omega)]

/-! ## Rows -/

/-- A row that is stored right before another. -/
theorem loadWords_storeWords_before (m : Memory w) (a : BitVec w) (vs : List (BitVec 32)) (n : ℕ)
    (hw : 4 * (vs.length + n) ≤ 2 ^ w) :
    (m.storeWords a vs).loadWords (a + BitVec.ofNat w (4 * vs.length)) n =
      m.loadWords (a + BitVec.ofNat w (4 * vs.length)) n := by
  refine loadWords_congr fun x hx => storeWords_of_outside _ (Nat.le_of_not_lt fun hlt => ?_)
  exact absurd hx (Nat.not_lt_of_le (le_toNat_sub_add (by omega) hlt))

theorem add_ofNat_succ (a : BitVec w) (k : ℕ) :
    a + BitVec.ofNat w (4 * (k + 1)) = a + 4 + BitVec.ofNat w (4 * k) := by
  rw [Nat.mul_succ, Nat.add_comm (4 * k) 4, BitVec.ofNat_add, add_assoc]
  rfl

/-- One row behind another. -/
theorem loadWords_add (m : Memory w) (a : BitVec w) (k n : ℕ) :
    m.loadWords a (k + n) = m.loadWords a k ++ m.loadWords (a + BitVec.ofNat w (4 * k)) n := by
  induction k generalizing a with
  | zero => rw [Nat.zero_add, Nat.mul_zero, BitVec.add_zero, loadWords, List.nil_append]
  | succ k ih => rw [Nat.succ_add, loadWords, ih, loadWords, List.cons_append, add_ofNat_succ]

/-- A word of a row. -/
theorem getD_loadWords (m : Memory w) (a : BitVec w) {k n : ℕ} (hk : k < n) (d : BitVec 32) :
    (m.loadWords a n).getD k d = m.loadWord (a + BitVec.ofNat w (4 * k)) := by
  induction n generalizing a k with
  | zero => exact absurd hk (Nat.not_lt_zero k)
  | succ n ih =>
    cases k with
    | zero => rw [Nat.mul_zero, BitVec.add_zero, loadWords, List.getD_cons_zero]
    | succ k => rw [loadWords, List.getD_cons_succ, ih _ (Nat.lt_of_succ_lt_succ hk), add_ofNat_succ]

/-! ## Blocks of bytes -/

variable {f g : ℕ → BitVec 8} {p : ℕ}

theorem put_zero : m.put a 0 f = m := by
  ext x : 1
  exact if_neg (Nat.not_lt_zero _)

theorem put_of_lt (h : (x - a).toNat < n) : m.put a n f x = f (x - a).toNat := if_pos h

theorem put_of_le (h : n ≤ (x - a).toNat) : m.put a n f x = m x := if_neg (Nat.not_lt_of_le h)

/-- **One block behind another.** -/
theorem put_put (hn : p + n ≤ 2 ^ w) (hbuf : ∀ i < n, g i = f (p + i)) :
    (m.put a p f).put (a + BitVec.ofNat w p) n g = m.put a (p + n) f := by
  ext x : 1
  by_cases hlow : (x - a).toNat < p
  · have hout : n ≤ (x - (a + BitVec.ofNat w p)).toNat := le_toNat_sub_add hn hlow
    rw [put_of_le hout, put_of_lt hlow, put_of_lt (by omega)]
  · have hdist := toNat_sub_add (Nat.le_of_not_lt hlow)
    by_cases hin : (x - (a + BitVec.ofNat w p)).toNat < n
    · have hsum : p + ((x - a).toNat - p) = (x - a).toNat := by omega
      rw [put_of_lt hin, put_of_lt (by omega), hbuf _ hin, hdist, hsum]
    · rw [put_of_le (Nat.le_of_not_lt hin), put_of_le (Nat.le_of_not_lt hlow), put_of_le (by omega)]

/-- **One block before another.** -/
theorem put_put_before (hbuf : ∀ i < n, g i = f i) :
    (m.put (a + BitVec.ofNat w n) p fun i => f (n + i)).put a n g = m.put a (n + p) f := by
  ext x : 1
  by_cases hlow : (x - a).toNat < n
  · rw [put_of_lt hlow, put_of_lt (by omega), hbuf _ hlow]
  · have hdist := toNat_sub_add (Nat.le_of_not_lt hlow)
    rw [put_of_le (Nat.le_of_not_lt hlow)]
    by_cases hin : (x - (a + BitVec.ofNat w n)).toNat < p
    · have hsum : n + ((x - a).toNat - n) = (x - a).toNat := by omega
      rw [put_of_lt hin, put_of_lt (by omega), hdist, hsum]
    · rw [put_of_le (Nat.le_of_not_lt hin), put_of_le (by omega)]

end Memory
end CoreOS
