import CoreOS.Heap.Map

/-!
# Where the two calls reach in the map

The map holds 2048 entries and ends exactly where the heap begins.  This file decides for every
call whether it stays inside, and whether the entries at `malloc_obj_count` and above, which hold
no object, have any say in what it does.

Three things go wrong.  A split at 2047 objects moves the stale entry 2047 up to index 2048, which
is the first two bytes of the heap.  A release of the last object tests the entry after it.  And
the end of the heap passes for the address of an object, whose entry is then `malloc_obj_count`.
`InMap` lists the calls that avoid all three, and `confined_iff_inMap` says that it lists exactly
the histories that stay inside the map and do not depend on stale entries.

The number of objects is at most 2048 in every state of every history (`count_exec_le`), so none of
this needs the map to be in order.
-/

namespace CoreOS
namespace Heap

open Runs

/-- Every entry read or written so far belongs to the map. -/
def Confined (m : MallocMap) : Prop := ∀ t ∈ m.touched, t < mallocObjNum

/-- The two maps hold the same objects; their stale entries may differ. -/
structure SameObjects (m m' : MallocMap) : Prop where
  count_eq : m'.mallocObjCount = m.mallocObjCount
  objs_eq : ∀ i < m.mallocObjCount, m'.objs i = m.objs i

/-- Stale entries have no influence on the call: from any map with the same objects it returns the
same value and leaves the same objects. -/
def StaleFree (m : MallocMap) (c : Call) : Prop :=
  ∀ m', SameObjects m m' → result m' c = result m c ∧ SameObjects (exec m c) (exec m' c)

/-- The calls that stay inside the map. -/
def InMap (m : MallocMap) : Call → Prop
  | .malloc size => ∀ i, m.firstFit size.toNat = some i →
      size.toNat < m.size i * mallocBlockSize → m.mallocObjCount + 1 ≠ mallocObjNum
  | .free ptr => ptr ≠ 0 → m.addr (m.freeIndex ptr) = ptr →
      m.freeIndex ptr + 1 ≠ m.mallocObjCount ∧
      (m.freeIndex ptr = m.mallocObjCount → m.mallocObjCount < mallocObjNum ∧
        ∀ k, m.freeIndex ptr = k + 1 → (m.objs k).used = false →
          m.mallocObjCount + 1 < mallocObjNum)

/-! ## The object count -/

theorem count_exec_le {m : MallocMap} (h : m.mallocObjCount ≤ mallocObjNum) (c : Call) :
    (exec m c).mallocObjCount ≤ mallocObjNum := by
  cases c with
  | malloc size =>
    rw [exec, MallocMap.syscallMalloc_eq]
    cases m.firstFit size.toNat with
    | none => exact h
    | some i =>
      show ((m.scanned 0 (i + 1)).take size.toNat i).2.mallocObjCount ≤ mallocObjNum
      rw [MallocMap.take_scanned]
      split
      · split
        · exact h
        · rw [MallocMap.split_mallocObjCount, MallocMap.scanned_mallocObjCount]
          omega
      · exact h
  | free ptr =>
    rw [exec, MallocMap.syscallFree_eq]
    split
    · exact h
    · split
      · exact h
      · rw [MallocMap.release_mallocObjCount, MallocMap.scanned_mallocObjCount]
        omega

/-! ## What maps with the same objects share -/

namespace SameObjects

variable {m m' : MallocMap} (h : SameObjects m m')

include h

theorem size_eq {i : ℕ} (hi : i < m.mallocObjCount) : m'.size i = m.size i := by
  rw [MallocMap.size, MallocMap.size, h.objs_eq i hi]

theorem addr_eq {i : ℕ} (hi : i ≤ m.mallocObjCount) : m'.addr i = m.addr i :=
  MallocMap.addr_congr fun j hj => h.objs_eq j (by omega)

theorem fits_iff {size i : ℕ} (hi : i < m.mallocObjCount) : m'.Fits size i ↔ m.Fits size i := by
  rw [MallocMap.Fits, MallocMap.Fits, h.objs_eq i hi, h.size_eq hi]

theorem firstFit_eq (size : ℕ) : m'.firstFit size = m.firstFit size := by
  cases hfit : m.firstFit size with
  | none =>
    rw [MallocMap.firstFit_eq_none] at hfit ⊢
    intro i hi
    rw [h.count_eq] at hi
    rw [h.fits_iff hi]
    exact hfit i hi
  | some i =>
    rw [MallocMap.firstFit_eq_some] at hfit ⊢
    obtain ⟨hi, hfits, hfirst⟩ := hfit
    refine ⟨by rw [h.count_eq]; exact hi, (h.fits_iff hi).mpr hfits, fun j hj => ?_⟩
    rw [h.fits_iff (by omega)]
    exact hfirst j hj

theorem freeIndex_eq (ptr : ℕ) : m'.freeIndex ptr = m.freeIndex ptr := by
  have hle := m.freeIndex_le ptr
  have hle' := m'.freeIndex_le ptr
  rw [h.count_eq] at hle'
  -- the walk stops at the first entry that is not below the pointer, in either map
  refine le_antisymm ?_ ?_
  · by_contra hlt
    have h₁ := m'.addr_lt_of_lt_freeIndex ptr (Nat.lt_of_not_le hlt)
    rw [h.addr_eq hle] at h₁
    have h₂ := (m.freeWalk_spec ptr).2.2.2 (by omega)
    omega
  · by_contra hlt
    have h₁ := m.addr_lt_of_lt_freeIndex ptr (Nat.lt_of_not_le hlt)
    have h₂ := (m'.freeWalk_spec ptr).2.2.2 (by rw [h.count_eq]; omega)
    rw [h.addr_eq hle'] at h₂
    omega

end SameObjects

theorem sameObjects_scanned {m m' : MallocMap} (h : SameObjects m m') (a k a' k' : ℕ) :
    SameObjects (m.scanned a k) (m'.scanned a' k') := ⟨h.count_eq, h.objs_eq⟩

/-! ## `syscall_malloc` -/

theorem sameObjects_split {m m' : MallocMap} (h : SameObjects m m') {i size : ℕ}
    (hi : i < m.mallocObjCount) : SameObjects (m.split i size) (m'.split i size) := by
  refine ⟨?_, fun t ht => ?_⟩
  · rw [MallocMap.split_mallocObjCount, MallocMap.split_mallocObjCount, h.count_eq]
  · rw [MallocMap.split_mallocObjCount] at ht
    rw [MallocMap.objs_split (by rw [h.count_eq]; exact hi.le), MallocMap.objs_split hi.le,
      h.size_eq hi, h.objs_eq i hi, h.count_eq]
    by_cases h₁ : t < i
    · rw [if_pos h₁, if_pos h₁, h.objs_eq t (by omega)]
    · rw [if_neg h₁, if_neg h₁]
      by_cases h₂ : t = i
      · rw [if_pos h₂, if_pos h₂]
      · rw [if_neg h₂, if_neg h₂]
        by_cases h₃ : t = i + 1
        · rw [if_pos h₃, if_pos h₃]
        · rw [if_neg h₃, if_neg h₃, if_pos (by omega), if_pos (by omega),
            h.objs_eq (t - 1) (by omega)]

/-- `syscall_malloc` never depends on stale entries: the one it reads is moved up and stays
stale. -/
theorem staleFree_malloc (m : MallocMap) (size : BitVec 32) : StaleFree m (.malloc size) := by
  intro m' h
  simp only [result, exec, MallocMap.syscallMalloc_eq, h.firstFit_eq]
  cases hfit : m.firstFit size.toNat with
  | none => exact ⟨rfl, h.count_eq, h.objs_eq⟩
  | some i =>
    obtain ⟨hi, -, -⟩ := MallocMap.firstFit_eq_some.mp hfit
    have hs := sameObjects_scanned h 0 (i + 1) 0 (i + 1)
    simp only [MallocMap.take_scanned, h.size_eq hi, h.count_eq, h.addr_eq hi.le, h.objs_eq i hi]
    split
    · split
      · exact ⟨rfl, hs⟩
      · exact ⟨rfl, sameObjects_split hs hi⟩
    · refine ⟨rfl, hs.count_eq, fun t ht => ?_⟩
      simp only [MallocMap.setObj_objs, Function.update_apply, MallocMap.scanned_objs]
      rw [h.objs_eq t ht]

theorem confined_malloc_iff {m : MallocMap} (hm : Confined m)
    (hc : m.mallocObjCount ≤ mallocObjNum) (size : BitVec 32) :
    Confined (exec m (.malloc size)) ↔ InMap m (.malloc size) := by
  rw [exec, MallocMap.syscallMalloc_eq, InMap]
  have hscan : ∀ k ≤ m.mallocObjCount, Confined (m.scanned 0 k) := by
    intro k hk t ht
    rw [MallocMap.mem_scanned_touched] at ht
    rcases ht with ht | ht
    · omega
    · exact hm t ht
  cases hfit : m.firstFit size.toNat with
  | none => exact iff_of_true (hscan _ (le_refl _)) (fun i hi => absurd hi (by simp))
  | some i =>
    obtain ⟨hi, -, -⟩ := MallocMap.firstFit_eq_some.mp hfit
    have hscan := hscan (i + 1) hi
    show Confined ((m.scanned 0 (i + 1)).take size.toNat i).2 ↔ _
    simp only [MallocMap.take_scanned, Option.some.injEq, forall_eq']
    by_cases hlt : size.toNat < m.size i * mallocBlockSize
    · rw [if_pos hlt]
      by_cases hfull : m.mallocObjCount = mallocObjNum
      · rw [if_pos hfull]
        exact iff_of_true hscan fun _ => by omega
      · -- a split reaches one entry past the stale one
        rw [if_neg hfull]
        constructor
        · intro h _ hlast
          have := h (m.mallocObjCount + 1)
            ((MallocMap.mem_split_touched (by exact hi.le)).mpr
              (Or.inl ⟨by omega, le_refl _⟩))
          omega
        · intro h t ht
          rw [MallocMap.mem_split_touched (by exact hi.le)] at ht
          rcases ht with ⟨-, ht⟩ | ht
          · rw [MallocMap.scanned_mallocObjCount] at ht
            have := h hlt
            omega
          · exact hscan t ht
    · rw [if_neg hlt]
      refine iff_of_true (fun t ht => ?_) (fun h => absurd h hlt)
      rw [MallocMap.mem_setObj_touched] at ht
      rcases ht with rfl | ht
      · omega
      · exact hscan t ht

/-! ## `syscall_free` -/

section release

variable {m : MallocMap} {i : ℕ}

theorem mem_mergeReads {t : ℕ} :
    t ∈ m.mergeReads i ↔ t = i ∨ (i < m.mallocObjCount ∧ t = i + 1) ∨ (0 < i ∧ t = i - 1) ∨
      (m.mergesPrev i = true ∧ t = i + 1) := by
  simp only [MallocMap.mergeReads, List.mem_append, List.mem_singleton]
  constructor
  · rintro (((h | h) | h) | h)
    · exact Or.inl h
    · split at h
      · exact Or.inr (Or.inl ⟨‹_›, by simpa using h⟩)
      · simp at h
    · split at h
      · exact Or.inr (Or.inr (Or.inl ⟨‹_›, by simpa using h⟩))
      · simp at h
    · split at h
      · exact Or.inr (Or.inr (Or.inr ⟨‹_›, by simpa using h⟩))
      · simp at h
  · rintro (h | ⟨h₁, h₂⟩ | ⟨h₁, h₂⟩ | ⟨h₁, h₂⟩)
    · exact Or.inl (Or.inl (Or.inl h))
    · exact Or.inl (Or.inl (Or.inr (by rw [if_pos h₁]; simpa using h₂)))
    · exact Or.inl (Or.inr (by rw [if_pos h₁]; simpa using h₂))
    · exact Or.inr (by rw [if_pos h₁]; simpa using h₂)

theorem mergesPrev_iff : m.mergesPrev i = true ↔ ∃ k, i = k + 1 ∧ (m.objs k).used = false := by
  cases i with
  | zero => simp [MallocMap.mergesPrev]
  | succ k => simp [MallocMap.mergesPrev]

theorem target_le (m : MallocMap) (i : ℕ) : m.target i ≤ i := by
  unfold MallocMap.target
  split <;> omega

theorem confined_release_iff (hm : Confined m) (hc : m.mallocObjCount ≤ mallocObjNum)
    (hi : i ≤ m.mallocObjCount) :
    Confined (m.release i) ↔ (i < m.mallocObjCount → i + 1 < mallocObjNum) ∧
      (i = m.mallocObjCount → m.mallocObjCount < mallocObjNum ∧
        ∀ k, i = k + 1 → (m.objs k).used = false → m.mallocObjCount + 1 < mallocObjNum) := by
  have ht := target_le m i
  constructor
  · intro h
    have hread : ∀ t ∈ m.mergeReads i, t < mallocObjNum := fun t h' =>
      h t (MallocMap.mem_release_touched.mpr (Or.inr (Or.inr (Or.inr (Or.inl h')))))
    refine ⟨fun h' => hread _ (mem_mergeReads.mpr (Or.inr (Or.inl ⟨h', rfl⟩))), fun h' => ?_⟩
    refine ⟨?_, fun k hk hu => ?_⟩
    · have := hread i (mem_mergeReads.mpr (Or.inl rfl))
      omega
    · have := hread (i + 1)
        (mem_mergeReads.mpr (Or.inr (Or.inr (Or.inr ⟨mergesPrev_iff.mpr ⟨k, hk, hu⟩, rfl⟩))))
      omega
  · rintro ⟨hlt, hend⟩ t h
    have hi' : i < mallocObjNum := by
      rcases Nat.eq_or_lt_of_le hi with h' | h'
      · have := (hend h').1
        omega
      · omega
    rw [MallocMap.mem_release_touched] at h
    rcases h with h | h | h | h | h
    · omega
    · omega
    · omega
    · rw [mem_mergeReads] at h
      rcases h with h | ⟨h₁, h₂⟩ | ⟨h₁, h₂⟩ | ⟨h₁, h₂⟩
      · omega
      · have := hlt h₁
        omega
      · omega
      · rcases Nat.eq_or_lt_of_le hi with h' | h'
        · obtain ⟨k, hk, hu⟩ := mergesPrev_iff.mp h₁
          have := (hend h').2 k hk hu
          omega
        · have := hlt h'
          omega
    · exact hm t h

/-- A release inside the map, away from its last object, sees only objects. -/
theorem sameObjects_release {m' : MallocMap} (h : SameObjects m m')
    (hi : i + 1 < m.mallocObjCount ∨ i = m.mallocObjCount) :
    SameObjects (m.release i) (m'.release i) := by
  have hnext : m'.mergesNext i = m.mergesNext i := by
    rw [MallocMap.mergesNext, MallocMap.mergesNext, h.count_eq]
    rcases hi with hi | hi
    · rw [h.objs_eq (i + 1) hi]
    · rw [decide_eq_false (by omega), Bool.false_and, Bool.false_and]
  have hprev : m'.mergesPrev i = m.mergesPrev i := by
    rw [MallocMap.mergesPrev, MallocMap.mergesPrev]
    by_cases h0 : 0 < i
    · rw [h.objs_eq (i - 1) (by omega)]
    · rw [decide_eq_false h0, Bool.false_and, Bool.false_and]
  have hmove : m'.move i = m.move i := by
    rw [MallocMap.move, MallocMap.move, hnext, hprev]
  have htarget : m'.target i = m.target i := by
    rw [MallocMap.target, MallocMap.target, hprev]
  refine ⟨?_, fun t ht => ?_⟩
  · rw [MallocMap.release_mallocObjCount, MallocMap.release_mallocObjCount, h.count_eq, hmove]
  · rw [MallocMap.release_mallocObjCount] at ht
    rw [MallocMap.objs_release, MallocMap.objs_release, htarget, hmove, h.count_eq]
    by_cases h₁ : t = m.target i
    · rw [if_pos h₁, if_pos h₁]
      rcases hi with hi | hi
      · rw [MallocMap.emptySize, MallocMap.emptySize, hnext, hprev, h.size_eq (i := i) (by omega),
          h.size_eq hi]
      · -- at the end of the heap the merged entry is not an object any more
        exfalso
        have hle : m.mallocObjCount - m.move i ≤ m.target i := by
          rcases m.merge_cases i with ⟨-, -, hm, ht', -⟩ | ⟨h', -⟩ |
            ⟨-, ⟨k, hk, -, ht'⟩, hm, -⟩ | ⟨h', -⟩
          · omega
          · omega
          · omega
          · omega
        omega
    · rw [if_neg h₁, if_neg h₁]
      by_cases h₂ : m.target i < t ∧ t < m.mallocObjCount - m.move i
      · rw [if_pos h₂, if_pos h₂, h.objs_eq _ (by omega)]
      · rw [if_neg h₂, if_neg h₂, h.objs_eq t (by omega)]

/-- The same map with the flag of its first stale entry flipped. -/
def flipStale (m : MallocMap) : MallocMap :=
  let stale := m.objs m.mallocObjCount
  { m with objs := Function.update m.objs m.mallocObjCount ⟨!stale.used, stale.size⟩ }

theorem sameObjects_flipStale (m : MallocMap) : SameObjects m (flipStale m) :=
  ⟨rfl, fun i hi => by
    unfold flipStale
    exact Function.update_of_ne (by omega) _ _⟩

/-- **The last object is released according to a stale flag**: flip the flag, and one object more
or less is left. -/
theorem release_flipStale_count (hi : i + 1 = m.mallocObjCount) :
    ((flipStale m).release i).mallocObjCount ≠ (m.release i).mallocObjCount := by
  have hprev : (flipStale m).mergesPrev i = m.mergesPrev i := by
    rw [MallocMap.mergesPrev, MallocMap.mergesPrev,
      (sameObjects_flipStale m).objs_eq (i - 1) (by omega)]
  have hnext : (flipStale m).mergesNext i = !m.mergesNext i := by
    simp [MallocMap.mergesNext, flipStale, hi, show i < m.mallocObjCount by omega]
  have hpos : (m.mergesPrev i).toNat < m.mallocObjCount := by
    cases hp : m.mergesPrev i with
    | false =>
      rw [Bool.toNat_false]
      omega
    | true =>
      obtain ⟨k, hk, -⟩ := mergesPrev_iff.mp hp
      rw [Bool.toNat_true]
      omega
  rw [MallocMap.release_mallocObjCount, MallocMap.release_mallocObjCount, MallocMap.move,
    MallocMap.move, hprev, hnext, show (flipStale m).mallocObjCount = m.mallocObjCount from rfl]
  cases m.mergesNext i with
  | false =>
    simp only [Bool.not_false, Bool.toNat_true, Bool.toNat_false]
    omega
  | true =>
    simp only [Bool.not_true, Bool.toNat_true, Bool.toNat_false]
    omega

end release

theorem free_ok_iff {m : MallocMap} (hm : Confined m) (hc : m.mallocObjCount ≤ mallocObjNum)
    (ptr : ℕ) :
    Confined (exec m (.free ptr)) ∧ StaleFree m (.free ptr) ↔ InMap m (.free ptr) := by
  have hle := m.freeIndex_le ptr
  have hscan : Confined (m.scanned 0 (m.freeIndex ptr)) := by
    intro t ht
    rw [MallocMap.mem_scanned_touched] at ht
    rcases ht with ht | ht
    · omega
    · exact hm t ht
  by_cases hnull : ptr = 0
  · refine iff_of_true ⟨?_, fun m' h => ?_⟩ fun h => absurd hnull h
    · rw [exec, MallocMap.syscallFree_eq, if_pos hnull]
      exact hm
    · simp only [result, exec, MallocMap.syscallFree_eq, if_pos hnull]
      exact ⟨trivial, h⟩
  by_cases haddr : m.addr (m.freeIndex ptr) = ptr
  swap
  · refine iff_of_true ⟨?_, fun m' h => ?_⟩ fun _ h => absurd h haddr
    · rw [exec, MallocMap.syscallFree_eq, if_neg hnull, if_pos haddr]
      exact hscan
    · simp only [result, exec, MallocMap.syscallFree_eq, if_neg hnull, h.freeIndex_eq,
        h.addr_eq hle, ne_eq, haddr, not_false_eq_true, if_true]
      exact ⟨trivial, sameObjects_scanned h _ _ _ _⟩
  have hexec : ∀ m', SameObjects m m' → m'.syscallFree ptr =
      (0, (m'.scanned 0 (m.freeIndex ptr)).release (m.freeIndex ptr)) := by
    intro m' h
    rw [MallocMap.syscallFree_eq, if_neg hnull, h.freeIndex_eq, h.addr_eq hle,
      if_neg (by simpa using haddr)]
  have hself := hexec m ⟨rfl, fun _ _ => rfl⟩
  simp only [exec, InMap, hself]
  rw [confined_release_iff hscan hc hle]
  constructor
  · rintro ⟨⟨-, hend⟩, hstale⟩ _ _
    refine ⟨fun hlast => ?_, hend⟩
    have hflip := (hstale _ (sameObjects_flipStale m)).2.count_eq
    rw [exec, exec, hexec _ (sameObjects_flipStale m), hself] at hflip
    exact release_flipStale_count (m := m.scanned 0 (m.freeIndex ptr)) hlast hflip
  · intro h
    obtain ⟨hlast, hend⟩ := h hnull haddr
    refine ⟨⟨fun h' => ?_, hend⟩, fun m' h' => ?_⟩
    · rw [MallocMap.scanned_mallocObjCount] at h'
      omega
    rw [result, result, exec, exec, hexec m' h', hself]
    refine ⟨rfl, sameObjects_release (sameObjects_scanned h' _ _ _ _) ?_⟩
    rw [MallocMap.scanned_mallocObjCount]
    omega

/-- **When the calls stay inside the map.**  From the heap of a fresh process, a history touches
only the 2048 entries of the map and never depends on a stale one exactly when each of its calls
meets `InMap`. -/
theorem confined_iff_inMap (stale : ℕ → MallocObj) (calls : List Call) :
    Meets exec (fun m c => Confined (exec m c) ∧ StaleFree m c) (fresh stale) calls ↔
      Meets exec InMap (fresh stale) calls := by
  refine meets_congr (I := fun m => Confined m ∧ m.mallocObjCount ≤ mallocObjNum)
    (fun m c hm hc => ⟨hc.1, count_exec_le hm.2 c⟩) (fun m c hm => ?_) ⟨?_, ?_⟩ calls
  · cases c with
    | malloc size =>
      rw [confined_malloc_iff hm.1 hm.2]
      exact ⟨fun h => h.1, fun h => ⟨h, staleFree_malloc m size⟩⟩
    | free ptr => exact free_ok_iff hm.1 hm.2 ptr
  · intro t ht
    exact absurd ht (by simp [fresh])
  · simp [fresh, mallocObjNum]

/-- The whole heap is allocated as one object and freed.  The second call tests entry 1, which holds
no object, and loses the only object of the map when that entry is marked unused. -/
theorem not_confined :
    ¬ Meets exec (fun m c => Confined (exec m c) ∧ StaleFree m c) (fresh fun _ => ⟨false, 0⟩)
      [.malloc 262144, .free heapStart] := by
  rintro ⟨-, ⟨-, hstale⟩, -⟩
  have hcount := (hstale _ (sameObjects_flipStale _)).2.count_eq
  exact absurd hcount (by decide)

end Heap
end CoreOS
