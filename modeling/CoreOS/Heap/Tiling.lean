import CoreOS.Heap.Map
import Mathlib.Tactic.NormNum

/-!
# The map tiles the heap

`syscall.h` says what the map means: the objects lie end to end and fill the heap, and unused
objects are never neighbours.  `Tiled` is that, and this file decides which calls keep it.

`syscall_malloc` always does (`tiled_syscallMalloc`).  `syscall_free` does not: when the object
before the freed one is unused it adds the size of the object *after* the freed one instead, and it
tests the entry after the freed one even when the freed one is the last.  `MergesWell` is the exact
condition on the map and the pointer under which the call goes well all the same
(`tiled_syscallFree_iff`), and `always_tiled_iff` is the same statement about whole histories.
-/

namespace CoreOS
namespace Heap

open Runs

/-- **The representation invariant.**  The first `malloc_obj_count` entries tile the heap, and no
two consecutive ones are both unused. -/
structure Tiled (m : MallocMap) : Prop where
  count_pos : 1 ≤ m.mallocObjCount
  count_le : m.mallocObjCount ≤ mallocObjNum
  sum_eq : ((List.range m.mallocObjCount).map m.size).sum = mallocHeapSize
  coalesced : ∀ i, i + 1 < m.mallocObjCount →
    (m.objs i).used = true ∨ (m.objs (i + 1)).used = true

namespace MallocMap

theorem sum_range_size (m : MallocMap) (i : ℕ) :
    ((List.range i).map m.size).sum = m.offset i := by
  induction i with
  | zero => rfl
  | succ i ih => rw [List.range_succ, List.map_append, List.sum_append, ih]; simp

theorem size_lt (m : MallocMap) (i : ℕ) : m.size i < 2 ^ 15 := (m.objs i).size.isLt

end MallocMap

theorem Tiled.offset_eq {m : MallocMap} (h : Tiled m) :
    m.offset m.mallocObjCount = mallocHeapSize := by
  rw [← m.sum_range_size]
  exact h.sum_eq

theorem Tiled.size_le {m : MallocMap} (h : Tiled m) {i : ℕ} (hi : i < m.mallocObjCount) :
    m.size i ≤ mallocHeapSize := by
  have h₁ := m.offset_mono (show i + 1 ≤ m.mallocObjCount by omega)
  rw [h.offset_eq, MallocMap.offset_succ] at h₁
  omega

/-- Only the entries and the count matter, not the trace. -/
theorem tiled_congr {m m' : MallocMap} (ho : m'.objs = m.objs)
    (hc : m'.mallocObjCount = m.mallocObjCount) : Tiled m' ↔ Tiled m := by
  have hs : m'.size = m.size := by
    ext i : 1
    rw [MallocMap.size, MallocMap.size, ho]
  constructor
  · rintro ⟨h₁, h₂, h₃, h₄⟩
    rw [hc] at h₁ h₂ h₃ h₄
    rw [hs] at h₃
    rw [ho] at h₄
    exact ⟨h₁, h₂, h₃, h₄⟩
  · rintro ⟨h₁, h₂, h₃, h₄⟩
    constructor
    · rw [hc]; exact h₁
    · rw [hc]; exact h₂
    · rw [hc, hs]; exact h₃
    · rw [hc, ho]; exact h₄

theorem tiled_scanned (m : MallocMap) (i k : ℕ) : Tiled (m.scanned i k) ↔ Tiled m :=
  tiled_congr rfl rfl

theorem tiled_fresh (stale : ℕ → MallocObj) : Tiled (fresh stale) := by
  refine ⟨le_refl _, by simp [fresh, mallocObjNum],
    by simp [fresh, MallocMap.size, mallocHeapSize], fun i hi => ?_⟩
  exact absurd hi (by simp [fresh])

/-! ## `syscall_malloc` -/

section split

variable {m : MallocMap} {i size : ℕ}

/-- The size a split leaves in entry `i`. -/
theorem size_split_self (hi : i ≤ m.mallocObjCount) (hsize : size < m.size i * mallocBlockSize) :
    (m.split i size).size i = size / 32 + 1 := by
  have hlt := m.size_lt i
  rw [MallocMap.size, MallocMap.objs_split hi, if_neg (by omega), if_pos rfl, BitVec.toNat_ofNat,
    Nat.mod_eq_of_lt]
  unfold mallocBlockSize at hsize
  omega

/-- The size a split leaves in entry `i + 1`. -/
theorem size_split_succ (hi : i ≤ m.mallocObjCount) (hsize : size < m.size i * mallocBlockSize) :
    (m.split i size).size (i + 1) = m.size i - (size / 32 + 1) := by
  have hlt := m.size_lt i
  have hself := size_split_self hi hsize
  rw [MallocMap.size, MallocMap.objs_split hi, if_neg (by omega), if_pos rfl] at hself
  rw [MallocMap.size, MallocMap.objs_split hi, if_neg (by omega), if_neg (by omega), if_pos rfl,
    hself, BitVec.toNat_ofNat, Nat.mod_eq_of_lt]
  omega

/-- **A split moves no object.**  The entry at index `k + 1` after it has the offset that entry `k`
had before. -/
theorem offset_split (hi : i < m.mallocObjCount) (hsize : size < m.size i * mallocBlockSize)
    {k : ℕ} (hik : i < k) (hk : k ≤ m.mallocObjCount) :
    (m.split i size).offset (k + 1) = m.offset k := by
  induction k, hik using Nat.le_induction with
  | base =>
    have hlow : (m.split i size).offset i = m.offset i :=
      MallocMap.offset_congr fun j hj => MallocMap.objs_split_of_lt hi.le hj
    rw [MallocMap.offset_succ, MallocMap.offset_succ, hlow, size_split_self hi.le hsize,
      size_split_succ hi.le hsize, MallocMap.offset_succ]
    unfold mallocBlockSize at hsize
    omega
  | succ k hik' ih =>
    have hobj : (m.split i size).size (k + 1) = m.size k := by
      rw [MallocMap.size, MallocMap.objs_split hi.le, if_neg (by omega), if_neg (by omega),
        if_neg (by omega), if_pos (by omega), Nat.add_sub_cancel]
      rfl
    rw [MallocMap.offset_succ, ih (by omega), hobj, MallocMap.offset_succ]

theorem tiled_split (h : Tiled m) (hi : i < m.mallocObjCount)
    (hu : (m.objs i).used = false) (hsize : size < m.size i * mallocBlockSize)
    (hfull : m.mallocObjCount ≠ mallocObjNum) : Tiled (m.split i size) := by
  have hle := h.count_le
  refine ⟨by simp, by rw [MallocMap.split_mallocObjCount]; omega, ?_, fun j hj => ?_⟩
  · rw [MallocMap.sum_range_size, MallocMap.split_mallocObjCount,
      offset_split hi hsize hi (le_refl _), h.offset_eq]
  · rw [MallocMap.split_mallocObjCount] at hj
    rw [MallocMap.objs_split hi.le, MallocMap.objs_split hi.le]
    -- the pair lies below the split, touches the new object, or lies above it
    rcases lt_trichotomy j i with hji | hji | hji
    · rcases Nat.eq_or_lt_of_le (Nat.succ_le_of_lt hji) with h₁ | h₁
      · rw [if_neg (by omega : ¬ j + 1 < i), if_pos h₁]
        exact Or.inr rfl
      · rw [if_pos hji, if_pos h₁]
        exact h.coalesced j (by omega)
    · rw [if_neg (by omega), if_pos hji]
      exact Or.inl rfl
    · rw [if_neg (by omega : ¬ j < i), if_neg (by omega : ¬ j = i), if_neg (by omega : ¬ j + 1 < i),
        if_neg (by omega : ¬ j + 1 = i), if_neg (by omega : ¬ j + 1 = i + 1),
        if_pos (by omega : j + 1 ≤ m.mallocObjCount + 1), Nat.add_sub_cancel]
      by_cases hj1 : j = i + 1
      · rw [hj1]
        have := h.coalesced i (by omega)
        rw [hu] at this
        exact Or.inr (this.resolve_left (by simp))
      · rw [if_neg hj1, if_pos (by omega)]
        have := h.coalesced (j - 1) (by omega)
        rwa [Nat.sub_add_cancel (by omega)] at this

end split

theorem tiled_setObj_used {m : MallocMap} (h : Tiled m) (i : ℕ) :
    Tiled (m.setObj i { m.objs i with used := true }) := by
  refine ⟨h.count_pos, h.count_le, ?_, fun j hj => ?_⟩
  · rw [MallocMap.size_setObj_used]
    exact h.sum_eq
  rw [MallocMap.setObj_objs, Function.update_apply, Function.update_apply]
  rcases h.coalesced j hj with hu | hu
  · left
    split
    · rfl
    · exact hu
  · right
    split
    · rfl
    · exact hu

/-- **`syscall_malloc` keeps the invariant**, whatever the size asked for. -/
theorem tiled_syscallMalloc {m : MallocMap} (h : Tiled m) (size : BitVec 32) :
    Tiled (m.syscallMalloc size).2 := by
  rw [MallocMap.syscallMalloc_eq]
  cases hfit : m.firstFit size.toNat with
  | none => exact (tiled_scanned m _ _).mpr h
  | some i =>
    obtain ⟨hi, ⟨hu, -⟩, -⟩ := MallocMap.firstFit_eq_some.mp hfit
    have h' : Tiled (m.scanned 0 (i + 1)) := (tiled_scanned m _ _).mpr h
    show Tiled ((m.scanned 0 (i + 1)).take size.toNat i).2
    rw [MallocMap.take_scanned]
    split
    · next hlt =>
      split
      · exact h'
      · next hfull => exact tiled_split h' hi hu hlt hfull
    · exact tiled_setObj_used h' i

/-! ## `syscall_free` -/

section release

variable {m : MallocMap} {i : ℕ}

theorem size_release_target :
    (m.release i).size (m.target i) = m.emptySize i % 2 ^ 15 := by
  rw [MallocMap.size, MallocMap.objs_release, if_pos rfl, BitVec.toNat_ofNat]

/-- **What a release does to the offsets.**  The entries above the merged one keep their distances,
so the heap is tiled again exactly when the merged size is the size of what was merged. -/
theorem offset_release {d : ℕ} (hd : m.target i + 1 + d ≤ m.mallocObjCount - m.move i) :
    (m.release i).offset (m.target i + 1 + d) + m.offset (m.target i + 1 + m.move i) =
      m.offset (m.target i) + m.emptySize i % 2 ^ 15 +
        m.offset (m.target i + 1 + m.move i + d) := by
  induction d with
  | zero =>
    have hlow : (m.release i).offset (m.target i) = m.offset (m.target i) :=
      MallocMap.offset_congr fun j hj => by
        rw [MallocMap.objs_release, if_neg (by omega), if_neg (by omega)]
    simp only [Nat.add_zero]
    rw [MallocMap.offset_succ, hlow, size_release_target]
  | succ d ih =>
    have hobj : (m.release i).size (m.target i + 1 + d) =
        m.size (m.target i + 1 + m.move i + d) := by
      rw [MallocMap.size, MallocMap.objs_release, if_neg (by omega), if_pos (by omega),
        show m.target i + 1 + d + m.move i = m.target i + 1 + m.move i + d by omega]
      rfl
    rw [← Nat.add_assoc, ← Nat.add_assoc, MallocMap.offset_succ, MallocMap.offset_succ, hobj]
    have := ih (by omega)
    omega

/-- Entries below the merged one stay where they are. -/
theorem offset_release_of_le {k : ℕ} (hk : k ≤ m.target i) :
    (m.release i).offset k = m.offset k :=
  MallocMap.offset_congr fun j hj => by
    rw [MallocMap.objs_release, if_neg (by omega), if_neg (by omega)]

/-- The entry below the merged one is used, or it would have been merged as well. -/
theorem used_below_target (h : Tiled m) (hi : i ≤ m.mallocObjCount) {j : ℕ}
    (hj : j + 1 = m.target i) : (m.objs j).used = true := by
  rcases m.merge_cases i with ⟨-, hp, -, ht, -⟩ | ⟨-, -, hp, -, ht, -⟩ |
    ⟨-, ⟨k, hk, hu, ht⟩, -⟩ | ⟨-, -, ⟨k, hk, hu, ht⟩, -⟩
  · exact hp j (by omega)
  · exact hp j (by omega)
  · have := h.coalesced j (by omega)
    rw [hj, ht, hu] at this
    exact this.resolve_right (by simp)
  · have := h.coalesced j (by omega)
    rw [hj, ht, hu] at this
    exact this.resolve_right (by simp)

/-- The entry above the last one merged is used. -/
theorem used_above_target (h : Tiled m) (hi : i ≤ m.mallocObjCount)
    (hlt : m.target i + 1 + m.move i < m.mallocObjCount) :
    (m.objs (m.target i + 1 + m.move i)).used = true := by
  rcases m.merge_cases i with ⟨hn, -, hm, ht, -⟩ | ⟨-, hu, -, hm, ht, -⟩ |
    ⟨hn, ⟨k, hk, -, ht⟩, hm, -⟩ | ⟨-, hu, ⟨k, hk, -, ht⟩, hm, -⟩
  · rw [hm, ht]
    exact hn (by omega)
  · rw [hm, ht] at hlt ⊢
    have := h.coalesced (i + 1) (by omega)
    rw [hu] at this
    exact this.resolve_left (by simp)
  · rw [hm, ht] at hlt ⊢
    rw [show k + 1 + 1 = i + 1 by omega]
    exact hn (by omega)
  · rw [hm, ht] at hlt ⊢
    have := h.coalesced (i + 1) (by omega)
    rw [hu] at this
    rw [show k + 1 + 2 = i + 1 + 1 by omega]
    exact this.resolve_left (by simp)

/-- A release never leaves two unused neighbours. -/
theorem coalesced_release (h : Tiled m) (hi : i ≤ m.mallocObjCount) {j : ℕ}
    (hj : j + 1 < m.mallocObjCount - m.move i) :
    ((m.release i).objs j).used = true ∨ ((m.release i).objs (j + 1)).used = true := by
  rw [MallocMap.objs_release, MallocMap.objs_release]
  rcases lt_trichotomy (j + 1) (m.target i) with hlt | heq | hgt
  · rw [if_neg (by omega), if_neg (by omega), if_neg (by omega), if_neg (by omega)]
    exact h.coalesced j (by omega)
  · left
    rw [if_neg (by omega), if_neg (by omega)]
    exact used_below_target h hi heq
  · rcases Nat.eq_or_lt_of_le (Nat.le_of_lt_succ hgt) with heq | hgt'
    · right
      rw [if_neg (by omega), if_pos (by omega), ← heq]
      exact used_above_target h hi (by omega)
    · rw [if_neg (by omega), if_pos (by omega), if_neg (by omega), if_pos (by omega),
        show j + 1 + m.move i = j + m.move i + 1 by omega]
      exact h.coalesced (j + m.move i) (by omega)

/-- A release keeps the tiling if the map is not empty after it and still ends where the heap does. -/
theorem tiled_release_of (h : Tiled m) (hi : i ≤ m.mallocObjCount)
    (hpos : 1 ≤ m.mallocObjCount - m.move i)
    (hend : (m.release i).offset (m.mallocObjCount - m.move i) = mallocHeapSize) :
    Tiled (m.release i) := by
  have hle := h.count_le
  refine ⟨by rw [MallocMap.release_mallocObjCount]; exact hpos,
    by rw [MallocMap.release_mallocObjCount]; omega, ?_, fun j hj => ?_⟩
  · rw [MallocMap.sum_range_size, MallocMap.release_mallocObjCount]
    exact hend
  · rw [MallocMap.release_mallocObjCount] at hj
    exact coalesced_release h hi hj

/-- A release that leaves the merged object in the map keeps the tiling exactly when it gives it
the size of what was merged. -/
theorem tiled_release_iff_of_lt (h : Tiled m) (hi : i ≤ m.mallocObjCount)
    (hlt : m.target i < m.mallocObjCount - m.move i) :
    Tiled (m.release i) ↔ m.offset (m.target i) + m.emptySize i % 2 ^ 15 =
      m.offset (m.target i + 1 + m.move i) := by
  have hoff := offset_release (m := m) (i := i)
    (d := m.mallocObjCount - m.move i - (m.target i + 1)) (by omega)
  rw [show m.target i + 1 + (m.mallocObjCount - m.move i - (m.target i + 1)) =
      m.mallocObjCount - m.move i by omega, show m.target i + 1 + m.move i +
      (m.mallocObjCount - m.move i - (m.target i + 1)) = m.mallocObjCount by omega,
    h.offset_eq] at hoff
  constructor
  · intro h'
    have hsum := h'.offset_eq
    rw [MallocMap.release_mallocObjCount] at hsum
    omega
  · intro hsize
    exact tiled_release_of h hi (by omega) (by omega)

/-- A release that drops the merged object from the map keeps the tiling exactly when what it drops
is empty. -/
theorem tiled_release_iff_of_le (h : Tiled m) (hi : i ≤ m.mallocObjCount)
    (hle : m.mallocObjCount - m.move i ≤ m.target i) :
    Tiled (m.release i) ↔ 1 ≤ m.mallocObjCount - m.move i ∧
      m.offset (m.mallocObjCount - m.move i) = m.offset m.mallocObjCount := by
  have hoff := offset_release_of_le (m := m) (i := i) hle
  rw [h.offset_eq]
  constructor
  · intro h'
    have hsum := h'.offset_eq
    have hpos := h'.count_pos
    rw [MallocMap.release_mallocObjCount] at hsum hpos
    exact ⟨hpos, by omega⟩
  · rintro ⟨hpos, hsize⟩
    exact tiled_release_of h hi hpos (by omega)

/-- What the map must look like at entry `i` for `syscall_free` to merge it correctly.

* The end of the heap is not an object: the object below it must be used.
* When the object before is unused, the entry after must have the same size, since that is the size
  the code adds.
* When entry `i` is the last object, the code looks at a stale entry.  If that one is marked unused
  the object is dropped, which goes unnoticed only for an empty object. -/
structure MergeFits (m : MallocMap) (i : ℕ) : Prop where
  end_used : i = m.mallocObjCount → ∀ k, i = k + 1 → (m.objs k).used = true
  prev_size : i < m.mallocObjCount → ∀ k, i = k + 1 → (m.objs k).used = false →
    m.size (i + 1) = m.size k
  last_empty : i + 1 = m.mallocObjCount → (m.objs (i + 1)).used = false →
    m.size i = 0 ∧ ∀ k, i = k + 1 → (m.objs k).used = true

/-- Nothing to merge. -/
theorem tiled_release_alone (h : Tiled m) (hi : i ≤ m.mallocObjCount)
    (hn : i < m.mallocObjCount → (m.objs (i + 1)).used = true)
    (hp : ∀ k, i = k + 1 → (m.objs k).used = true) (hm : m.move i = 0) (ht : m.target i = i)
    (he : m.emptySize i = m.size i) : Tiled (m.release i) ∧ MergeFits m i := by
  have hcount := h.count_pos
  constructor
  · rcases Nat.eq_or_lt_of_le hi with hic | hic
    · rw [tiled_release_iff_of_le h hi (by omega), hm, Nat.sub_zero]
      exact ⟨hcount, rfl⟩
    · rw [tiled_release_iff_of_lt h hi (by omega), ht, hm, he, Nat.add_zero, MallocMap.offset_succ,
        Nat.mod_eq_of_lt (m.size_lt i)]
  · refine ⟨fun _ => hp, fun _ k hk hu => ?_, fun hl hu => ?_⟩
    · rw [hp k hk] at hu
      exact absurd hu (by simp)
    · rw [hn (by omega)] at hu
      exact absurd hu (by simp)

/-- A merge with the next object, or with the stale entry after the last one. -/
theorem tiled_release_next (h : Tiled m) (hic : i < m.mallocObjCount)
    (hu : (m.objs (i + 1)).used = false) (hp : ∀ k, i = k + 1 → (m.objs k).used = true)
    (hm : m.move i = 1) (ht : m.target i = i)
    (he : m.emptySize i = (m.size i + m.size (i + 1)) % 2 ^ 16) :
    Tiled (m.release i) ↔ MergeFits m i := by
  rcases Nat.eq_or_lt_of_le (Nat.succ_le_of_lt hic) with hlast | hlast
  · -- the last object, with an unused stale entry after it
    rw [tiled_release_iff_of_le h hic.le (by omega), hm, show m.mallocObjCount - 1 = i by omega,
      ← hlast, MallocMap.offset_succ]
    constructor
    · rintro ⟨-, hz⟩
      refine ⟨fun h' => by omega, fun _ k hk hu' => ?_, fun _ _ => ⟨by omega, hp⟩⟩
      rw [hp k hk] at hu'
      exact absurd hu' (by simp)
    · intro hfits
      have hz := (hfits.last_empty hlast hu).1
      refine ⟨?_, by omega⟩
      by_contra hi0
      have hsum := h.offset_eq
      rw [← hlast, MallocMap.offset_succ, show i = 0 by omega] at hsum
      rw [show i = 0 by omega] at hz
      rw [hz] at hsum
      exact absurd hsum (by simp [mallocHeapSize])
  · have hself := h.size_le hic
    have hnext : m.size (i + 1) ≤ mallocHeapSize := h.size_le hlast
    have hblocks : mallocHeapSize = 8192 := rfl
    refine iff_of_true ?_ ?_
    · rw [tiled_release_iff_of_lt h hic.le (by omega), ht, hm, he, MallocMap.offset_succ,
        MallocMap.offset_succ, Nat.mod_eq_of_lt (by omega), Nat.mod_eq_of_lt (by omega)]
      omega
    · refine ⟨fun h' => by omega, fun _ k hk hu' => ?_, fun h' => by omega⟩
      rw [hp k hk] at hu'
      exact absurd hu' (by simp)

/-- A merge with the previous object, but with the size of the next entry. -/
theorem tiled_release_prev (h : Tiled m) {k : ℕ} (hi : k + 1 ≤ m.mallocObjCount)
    (hn : k + 1 < m.mallocObjCount → (m.objs (k + 1 + 1)).used = true)
    (hk : (m.objs k).used = false) (hpos : 0 < m.size k) (hm : m.move (k + 1) = 1)
    (ht : m.target (k + 1) = k)
    (he : m.emptySize (k + 1) = (m.size (k + 1) + m.size (k + 1 + 1)) % 2 ^ 16) :
    Tiled (m.release (k + 1)) ↔ MergeFits m (k + 1) := by
  rcases Nat.eq_or_lt_of_le hi with hic | hic
  · -- the end of the heap, below it an unused object
    rw [tiled_release_iff_of_le h hi (by omega), hm, show m.mallocObjCount - 1 = k by omega,
      ← hic, MallocMap.offset_succ]
    refine iff_of_false (fun h' => by omega) (fun hfits => ?_)
    have := hfits.end_used hic k rfl
    rw [hk] at this
    exact absurd this (by simp)
  · have hlt15 := m.size_lt (k + 1 + 1)
    have hself := h.size_le hic
    have hprev : m.size k ≤ mallocHeapSize := h.size_le (by omega)
    have hblocks : mallocHeapSize = 8192 := rfl
    rw [tiled_release_iff_of_lt h hi (by omega), ht, hm, he, MallocMap.offset_succ,
      MallocMap.offset_succ, Nat.mod_mod_of_dvd _ (by norm_num : 2 ^ 15 ∣ 2 ^ 16)]
    constructor
    · intro hsize
      refine ⟨fun h' => by omega, fun _ k' hk' _ => ?_, fun h' hu' => ?_⟩
      · obtain rfl : k = k' := by omega
        omega
      · rw [hn hic] at hu'
        exact absurd hu' (by simp)
    · intro hfits
      have := hfits.prev_size hic k rfl hk
      rw [Nat.mod_eq_of_lt (by omega)]
      omega

/-- A merge with both neighbours. -/
theorem tiled_release_both (h : Tiled m) {k : ℕ} (hic : k + 1 < m.mallocObjCount)
    (hu : (m.objs (k + 1 + 1)).used = false) (hk : (m.objs k).used = false) (hpos : 0 < m.size k)
    (hm : m.move (k + 1) = 2) (ht : m.target (k + 1) = k)
    (he : m.emptySize (k + 1) =
      ((m.size (k + 1) + m.size (k + 1 + 1)) % 2 ^ 16 + m.size (k + 1 + 1)) % 2 ^ 16) :
    Tiled (m.release (k + 1)) ↔ MergeFits m (k + 1) := by
  rcases Nat.eq_or_lt_of_le (Nat.succ_le_of_lt hic) with hlast | hlast
  · rw [tiled_release_iff_of_le h hic.le (by omega), hm, show m.mallocObjCount - 2 = k by omega,
      ← hlast, MallocMap.offset_succ, MallocMap.offset_succ]
    refine iff_of_false (fun h' => by omega) (fun hfits => ?_)
    have := (hfits.last_empty hlast hu).2 k rfl
    rw [hk] at this
    exact absurd this (by simp)
  · have hself := h.size_le hic
    have hprev : m.size k ≤ mallocHeapSize := h.size_le (by omega)
    have hnext : m.size (k + 1 + 1) ≤ mallocHeapSize := h.size_le hlast
    have hblocks : mallocHeapSize = 8192 := rfl
    have hthree : m.offset (k + 1 + 2) =
        m.offset k + m.size k + m.size (k + 1) + m.size (k + 1 + 1) := rfl
    rw [tiled_release_iff_of_lt h hic.le (by omega), ht, hm, he, hthree,
      Nat.mod_eq_of_lt (by omega : m.size (k + 1) + m.size (k + 1 + 1) < 2 ^ 16),
      Nat.mod_eq_of_lt (by omega :
        m.size (k + 1) + m.size (k + 1 + 1) + m.size (k + 1 + 1) < 2 ^ 16),
      Nat.mod_eq_of_lt (by omega)]
    constructor
    · intro hsize
      refine ⟨fun h' => by omega, fun _ k' hk' _ => ?_, fun h' => by omega⟩
      obtain rfl : k = k' := by omega
      omega
    · intro hfits
      have := hfits.prev_size hic k rfl hk
      omega

theorem tiled_release_iff (h : Tiled m) (hi : i ≤ m.mallocObjCount)
    (hpos : ∀ k, i = k + 1 → 0 < m.size k) : Tiled (m.release i) ↔ MergeFits m i := by
  rcases m.merge_cases i with ⟨hn, hp, hm, ht, he⟩ | ⟨hic, hu, hp, hm, ht, he⟩ |
    ⟨hn, ⟨k, rfl, hk, ht⟩, hm, he⟩ | ⟨hic, hu, ⟨k, rfl, hk, ht⟩, hm, he⟩
  · obtain ⟨htiled, hfits⟩ := tiled_release_alone h hi hn hp hm ht he
    exact iff_of_true htiled hfits
  · exact tiled_release_next h hic hu hp hm ht he
  · exact tiled_release_prev h hi hn hk (hpos k rfl) hm ht he
  · exact tiled_release_both h hic hu hk (hpos k rfl) hm ht he

end release

/-- What a call must find for the map to stay tiled.  Nothing for `syscall_malloc`; for
`syscall_free`, that the pointer is no object's address or that its entry merges well. -/
def MergesWell (m : MallocMap) : Call → Prop
  | .malloc _ => True
  | .free ptr => ptr ≠ 0 → m.addr (m.freeIndex ptr) = ptr → MergeFits m (m.freeIndex ptr)

theorem mergeFits_scanned {m : MallocMap} {a k i : ℕ} :
    MergeFits (m.scanned a k) i ↔ MergeFits m i :=
  ⟨fun h => ⟨h.end_used, h.prev_size, h.last_empty⟩,
    fun h => ⟨h.end_used, h.prev_size, h.last_empty⟩⟩

theorem tiled_syscallFree_iff {m : MallocMap} (h : Tiled m) (ptr : ℕ) :
    Tiled (m.syscallFree ptr).2 ↔ MergesWell m (.free ptr) := by
  rw [MallocMap.syscallFree_eq, MergesWell]
  by_cases hnull : ptr = 0
  · rw [if_pos hnull]
    exact iff_of_true h fun h' => absurd hnull h'
  · rw [if_neg hnull]
    by_cases haddr : m.addr (m.freeIndex ptr) = ptr
    · rw [if_neg (by simpa using haddr),
        tiled_release_iff ((tiled_scanned m _ _).mpr h) (m.freeIndex_le ptr)
          (fun k hk => m.size_pos_of_freeIndex ptr hk haddr), mergeFits_scanned]
      exact ⟨fun h' _ _ => h', fun h' => h' hnull haddr⟩
    · rw [if_pos haddr]
      exact iff_of_true ((tiled_scanned m _ _).mpr h) fun _ h' => absurd h' haddr

/-- One call, from a tiled map: the map is tiled after it exactly when the call merges well. -/
theorem tiled_exec_iff {m : MallocMap} (h : Tiled m) (c : Call) :
    Tiled (exec m c) ↔ MergesWell m c := by
  cases c with
  | malloc size => exact iff_of_true (tiled_syscallMalloc h size) trivial
  | free ptr => exact tiled_syscallFree_iff h ptr

/-- **When the map tiles the heap.**  From the heap of a fresh process, whatever the page held
before, a history of calls keeps the map tiled in every state exactly when each of its calls merges
well. -/
theorem always_tiled_iff (stale : ℕ → MallocObj) (calls : List Call) :
    Always exec Tiled (fresh stale) calls ↔ Meets exec MergesWell (fresh stale) calls :=
  always_iff_meets (I := fun _ => True) (E := fun _ _ => True) (fun _ _ _ _ => trivial)
    (fun _ c _ _ h => tiled_exec_iff h c) trivial (tiled_fresh stale)
    (meets_of_forall (fun _ _ _ => trivial) _)

/-- Two objects are allocated and freed in the order they were allocated.  The second call of
`syscall_free` merges three objects of 1, 1 and 8190 blocks into one of 16381. -/
theorem not_always_tiled :
    ¬ Always exec Tiled (fresh fun _ => ⟨false, 0⟩)
      [.malloc 0, .malloc 0, .free heapStart, .free (heapStart + 32)] := by
  intro h
  exact absurd h.last.sum_eq (by decide)

end Heap
end CoreOS
