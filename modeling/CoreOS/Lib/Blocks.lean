import CoreOS.Lib.Memory
import Mathlib.Tactic.Abel

/-!
# Blocks that are stored one after the other

A piece of code that stores several blocks of bytes, where neither the places of the blocks nor their
bytes depend on what was there, leaves some bytes of the memory alone.  Which ones can be told from the
places: a byte stays what it was, whatever that was, exactly if it is in none of the blocks
(`putAll_eq_iff`).

What is asked of such a piece of code is mostly that it keeps to a region that it owns, a stack or a
buffer.  A region is a first address and a number of bytes, and like a block it may wrap around.
`putAll_eq_outside_iff` says that nothing outside of the region changes, whatever the memory held,
exactly if each block lies in the region from its first byte to its last.

Nothing here knows what the blocks are for.
-/

namespace CoreOS
namespace Memory

variable {w : ℕ}

/-- `size` bytes that are stored from `base` on. -/
structure Block (w : ℕ) where
  base : BitVec w
  size : ℕ
  bytes : ℕ → BitVec 8

/-- An address is one of the block. -/
def Block.Covers (b : Block w) (x : BitVec w) : Prop := (x - b.base).toNat < b.size

/-- The block lies in the region of `room` bytes from `lo` on.  A block without bytes may be anywhere. -/
def Block.Within (b : Block w) (lo : BitVec w) (room : ℕ) : Prop :=
  b.size = 0 ∨ (b.base - lo).toNat + b.size ≤ room

/-- Store the blocks of a list, the first one first. -/
def putAll (m : Memory w) : List (Block w) → Memory w
  | [] => m
  | b :: bs => putAll (m.put b.base b.size b.bytes) bs

variable {m : Memory w} {b : Block w} {bs cs : List (Block w)} {x lo : BitVec w} {room : ℕ}

/-! ## One byte -/

/-- A byte that is in none of the blocks. -/
theorem putAll_of_forall_not (h : ∀ b ∈ bs, ¬ b.Covers x) : m.putAll bs x = m x := by
  induction bs generalizing m with
  | nil => rfl
  | cons b bs ih =>
    have hfirst := h b List.mem_cons_self
    rw [putAll, ih fun c hc => h c (List.mem_cons_of_mem b hc), put_of_le (Nat.le_of_not_lt hfirst)]

/-- **The last block counts** among those that a byte is in. -/
theorem putAll_of_covers (m : Memory w) (bs : List (Block w)) (hb : b.Covers x)
    (hcs : ∀ c ∈ cs, ¬ c.Covers x) :
    m.putAll (bs ++ b :: cs) x = b.bytes (x - b.base).toNat := by
  induction bs generalizing m with
  | nil =>
    rw [List.nil_append, putAll, putAll_of_forall_not hcs]
    exact put_of_lt hb
  | cons c bs ih => exact ih _

/-- A byte that is in one of the blocks is a byte of the last of these. -/
theorem exists_putAll_eq (h : ∃ b ∈ bs, b.Covers x) : ∃ v, ∀ m : Memory w, m.putAll bs x = v := by
  induction bs with
  | nil => exact absurd h (by simp)
  | cons b bs ih =>
    by_cases hrest : ∃ c ∈ bs, c.Covers x
    · obtain ⟨v, hv⟩ := ih hrest
      exact ⟨v, fun m => hv _⟩
    · have hnone : ∀ c ∈ bs, ¬ c.Covers x := fun c hc hcov => hrest ⟨c, hc, hcov⟩
      obtain ⟨c, hc, hcov⟩ := h
      rcases List.mem_cons.mp hc with rfl | hc
      · exact ⟨_, fun m => putAll_of_covers m [] hcov hnone⟩
      · exact absurd hcov (hnone c hc)

/-- **Which bytes stay what they were**, whatever they were. -/
theorem putAll_eq_iff : (∀ m : Memory w, m.putAll bs x = m x) ↔ ∀ b ∈ bs, ¬ b.Covers x := by
  constructor
  · intro h b hb hcov
    obtain ⟨v, hv⟩ := exists_putAll_eq ⟨b, hb, hcov⟩
    -- a memory that holds another byte there
    have hsame : v = v + 1 := (hv fun _ => v + 1).symm.trans (h fun _ => v + 1)
    exact absurd (left_eq_add.mp hsame) (by decide)
  · exact fun h m => putAll_of_forall_not h

/-! ## A region -/

/-- **A block lies in a region** if it covers nothing outside of it. -/
theorem Block.within_iff (hroom : room < 2 ^ w) :
    b.Within lo room ↔ ∀ x, room ≤ (x - lo).toNat → ¬ b.Covers x := by
  constructor
  · rintro (hzero | hfit) x hx hcov
    · rw [Covers, hzero] at hcov
      exact Nat.not_lt_zero _ hcov
    · have hbase : lo + BitVec.ofNat w (b.base - lo).toNat = b.base := by
        rw [BitVec.ofNat_toNat, BitVec.setWidth_eq, add_sub_cancel]
      have hdist := toNat_sub_add (x := x) (a := lo) (k := (b.base - lo).toNat) (by omega)
      rw [hbase] at hdist
      rw [Covers, hdist] at hcov
      omega
  · intro h
    by_contra hnot
    obtain ⟨hsize, hlong⟩ := not_or.mp hnot
    rcases Nat.lt_or_ge (b.base - lo).toNat room with hin | hout
    · -- the first byte behind the region
      obtain ⟨j, hj⟩ : ∃ j, j = room - (b.base - lo).toNat := ⟨_, rfl⟩
      have hnat : (BitVec.ofNat w j).toNat = j := by
        rw [BitVec.toNat_ofNat, Nat.mod_eq_of_lt (by omega)]
      refine h (b.base + BitVec.ofNat w j) ?_ ?_
      · rw [add_sub_right_comm, BitVec.toNat_add, hnat, Nat.mod_eq_of_lt (by omega)]
        omega
      · rw [Covers, add_sub_cancel_left, hnat]
        omega
    · refine h b.base hout ?_
      have hzero : (b.base - b.base).toNat = 0 := by
        rw [sub_self]
        exact BitVec.toNat_zero
      rw [Covers, hzero]
      exact Nat.pos_of_ne_zero hsize

/-- **Nothing outside of a region changes**, whatever the memory held, exactly if all blocks lie in it. -/
theorem putAll_eq_outside_iff (hroom : room < 2 ^ w) :
    (∀ (m : Memory w) (x : BitVec w), room ≤ (x - lo).toNat → m.putAll bs x = m x) ↔
      ∀ b ∈ bs, b.Within lo room := by
  constructor
  · exact fun h b hb => (Block.within_iff hroom).mpr fun x hx =>
      putAll_eq_iff.mp (fun m => h m x hx) b hb
  · exact fun h m x hx => putAll_of_forall_not fun b hb =>
      (Block.within_iff hroom).mp (h b hb) x hx

/-! ## Downwards -/

/-- How far an address below `x` is from `lo`, when it is not below `lo`. -/
theorem toNat_sub_ofNat_sub {k : ℕ} (h : k ≤ (x - lo).toNat) :
    (x - BitVec.ofNat w k - lo).toNat = (x - lo).toNat - k := by
  have hlt := (x - lo).isLt
  rw [sub_right_comm, BitVec.toNat_sub, BitVec.toNat_ofNat, Nat.mod_eq_of_lt (by omega : k < 2 ^ w)]
  rw [show 2 ^ w - k + (x - lo).toNat = (x - lo).toNat - k + 2 ^ w by omega, Nat.add_mod_right,
    Nat.mod_eq_of_lt (by omega)]

/-- The same, when it is. -/
theorem toNat_sub_ofNat_sub_of_lt {k : ℕ} (h : (x - lo).toNat < k) (hk : k < 2 ^ w) :
    (x - BitVec.ofNat w k - lo).toNat = 2 ^ w + (x - lo).toNat - k := by
  rw [sub_right_comm, BitVec.toNat_sub, BitVec.toNat_ofNat, Nat.mod_eq_of_lt hk,
    Nat.mod_eq_of_lt (by omega)]
  omega

/-- Two addresses below `x`, the first of them the higher one, and an index from there. -/
theorem toNat_sub_ofNat_add_sub {k k' j : ℕ} (h : k ≤ k') (hlt : k' - k + j < 2 ^ w) :
    (x - BitVec.ofNat w k + BitVec.ofNat w j - (x - BitVec.ofNat w k')).toNat = k' - k + j := by
  have hsplit : BitVec.ofNat w k' = BitVec.ofNat w k + BitVec.ofNat w (k' - k) := by
    rw [← BitVec.ofNat_add, Nat.add_sub_cancel' h]
  have hdist : x - BitVec.ofNat w k + BitVec.ofNat w j - (x - BitVec.ofNat w k') =
      BitVec.ofNat w (k' - k + j) := by
    rw [hsplit, BitVec.ofNat_add, sub_add_eq_sub_sub]
    abel
  rw [hdist, BitVec.toNat_ofNat, Nat.mod_eq_of_lt hlt]

end Memory
end CoreOS
