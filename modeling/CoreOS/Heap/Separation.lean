import CoreOS.Heap.Tiling
import Mathlib.Data.List.Count
import Mathlib.Data.List.Pairwise
import Mathlib.Data.Set.Disjoint
import Mathlib.Order.CompletePartialOrder
import Mathlib.Order.Interval.Set.Defs

/-!
# Live allocations do not overlap

What a process may rely on: the blocks it holds lie inside the heap, are as large as it asked for,
and are pairwise disjoint.  A process is the map together with the allocations it holds; it may
free any of them, once each.

The map and the allocations are tied together by `Linked`.  Every allocation that is not empty *is*
a used object of the map, with its address and its size.  Empty ones need more care: an object of
size zero has the same address as the object after it, `syscall_free` takes the first entry at an
address, and so the entry it releases need not be the one the allocation came from.  `Linked`
therefore also counts: at every address there are at least as many used objects as allocations held.
When the entry released is not empty it is the only object at its address, so by the count no other
allocation is left there.
-/

namespace CoreOS
namespace Heap

open Runs Segments

namespace MallocMap

/-! ## The map as a list of segments -/

/-- Entry `i` as a segment. -/
def seg (m : MallocMap) (i : ℕ) : Seg := ⟨(m.objs i).used, m.size i⟩

/-- `k` entries from entry `i` on. -/
def segsFrom (m : MallocMap) (i k : ℕ) : List Seg := (List.range' i k).map m.seg

/-- The used objects of the map, each as its offset and its size in blocks. -/
def usedBlocks (m : MallocMap) : List (ℕ × ℕ) := used 0 (m.segsFrom 0 m.mallocObjCount)

/-- They lie one after the other. -/
theorem pairwise_usedBlocks (m : MallocMap) : m.usedBlocks.Pairwise fun u v => u.1 + u.2 ≤ v.1 :=
  pairwise_used 0 _

theorem segsFrom_add (m : MallocMap) (i k l : ℕ) :
    m.segsFrom i (k + l) = m.segsFrom i k ++ m.segsFrom (i + k) l := by
  rw [segsFrom, segsFrom, segsFrom, ← List.map_append, List.range'_append_1]

theorem segsFrom_succ (m : MallocMap) (i k : ℕ) :
    m.segsFrom i (k + 1) = m.seg i :: m.segsFrom (i + 1) k := by
  rw [segsFrom, List.range'_succ]
  rfl

@[simp] theorem segsFrom_zero (m : MallocMap) (i : ℕ) : m.segsFrom i 0 = [] := rfl

theorem segsFrom_congr {m m' : MallocMap} {i i' k : ℕ}
    (h : ∀ j < k, m'.objs (i' + j) = m.objs (i + j)) : m'.segsFrom i' k = m.segsFrom i k := by
  induction k generalizing i i' with
  | zero => rfl
  | succ k ih =>
    have h0 := h 0 (by omega)
    have hseg : m'.seg i' = m.seg i := by
      rw [seg, seg, size, size]
      simp only [Nat.add_zero] at h0
      rw [h0]
    rw [segsFrom_succ, segsFrom_succ, hseg, ih fun j hj => ?_]
    have := h (j + 1) (by omega)
    rwa [show i' + (j + 1) = i' + 1 + j by omega, show i + (j + 1) = i + 1 + j by omega] at this

theorem offset_add_total (m : MallocMap) (i k : ℕ) :
    m.offset i + total (m.segsFrom i k) = m.offset (i + k) := by
  induction k generalizing i with
  | zero => rfl
  | succ k ih =>
    rw [segsFrom_succ, total_cons, ← Nat.add_assoc, show m.offset i + (m.seg i).size =
      m.offset (i + 1) from rfl, ih, show i + 1 + k = i + (k + 1) by omega]

theorem total_segsFrom_zero (m : MallocMap) (k : ℕ) : total (m.segsFrom 0 k) = m.offset k := by
  have := m.offset_add_total 0 k
  simpa using this

theorem mem_used_segsFrom {m : MallocMap} {i k : ℕ} {u : ℕ × ℕ} :
    u ∈ used (m.offset i) (m.segsFrom i k) ↔
      ∃ j, i ≤ j ∧ j < i + k ∧ (m.objs j).used = true ∧ u = (m.offset j, m.size j) := by
  induction k generalizing i with
  | zero =>
    simp only [segsFrom_zero, used_nil, List.not_mem_nil, false_iff]
    rintro ⟨j, h₁, h₂, -⟩
    omega
  | succ k ih =>
    rw [segsFrom_succ, used_cons, List.mem_append,
      show m.offset i + (m.seg i).size = m.offset (i + 1) from rfl, ih]
    constructor
    · rintro (h | ⟨j, h₁, h₂, h₃⟩)
      · split at h
        · exact ⟨i, le_refl _, by omega, ‹_›, List.mem_singleton.mp h⟩
        · simp at h
      · exact ⟨j, by omega, by omega, h₃⟩
    · rintro ⟨j, h₁, h₂, hu, rfl⟩
      rcases Nat.eq_or_lt_of_le h₁ with rfl | h₁
      · left
        rw [if_pos (by exact hu)]
        simp [seg]
      · exact Or.inr ⟨j, h₁, by omega, hu, rfl⟩

theorem mem_usedBlocks {m : MallocMap} {u : ℕ × ℕ} :
    u ∈ m.usedBlocks ↔
      ∃ j < m.mallocObjCount, (m.objs j).used = true ∧ u = (m.offset j, m.size j) := by
  have := mem_used_segsFrom (m := m) (i := 0) (k := m.mallocObjCount) (u := u)
  rw [offset_zero] at this
  rw [usedBlocks, this]
  constructor
  · rintro ⟨j, -, hj, h⟩
    exact ⟨j, by omega, h⟩
  · rintro ⟨j, hj, h⟩
    exact ⟨j, Nat.zero_le _, by omega, h⟩

/-- The used objects, cut before and after `k` entries from entry `i` on. -/
theorem usedBlocks_cut (m : MallocMap) {i k : ℕ} (h : i + k ≤ m.mallocObjCount) :
    m.usedBlocks = used 0 (m.segsFrom 0 i) ++ used (m.offset i) (m.segsFrom i k) ++
      used (m.offset (i + k)) (m.segsFrom (i + k) (m.mallocObjCount - (i + k))) := by
  unfold usedBlocks
  have hcut : m.mallocObjCount = (i + k) + (m.mallocObjCount - (i + k)) := by omega
  conv_lhs => rw [hcut, segsFrom_add, segsFrom_add, used_append, used_append]
  simp only [Nat.zero_add, total_append, total_segsFrom_zero, offset_add_total]

end MallocMap

/-! ## What the calls do to the used objects -/

/-- The used objects around entry `i`. -/
theorem usedBlocks_of_unused {m : MallocMap} {i : ℕ} (hi : i < m.mallocObjCount)
    (hu : (m.objs i).used = false) :
    m.usedBlocks = used 0 (m.segsFrom 0 i) ++
      used (m.offset (i + 1)) (m.segsFrom (i + 1) (m.mallocObjCount - (i + 1))) := by
  have hnone : used (m.offset i) (m.segsFrom i 1) = [] := by
    simp [MallocMap.segsFrom_succ, MallocMap.seg, hu]
  rw [m.usedBlocks_cut (i := i) (k := 1) hi, hnone, List.append_nil]

/-- Taking the front of an unused object adds a used one there and moves no other. -/
theorem usedBlocks_split {m : MallocMap} {i size : ℕ} (hi : i < m.mallocObjCount)
    (hu : (m.objs i).used = false) (hlt : size < m.size i * mallocBlockSize) :
    (m.split i size).usedBlocks = used 0 (m.segsFrom 0 i) ++ (m.offset i, (m.split i size).size i) ::
      used (m.offset (i + 1)) (m.segsFrom (i + 1) (m.mallocObjCount - (i + 1))) := by
  have hcount := m.split_mallocObjCount i size
  have hlow : (m.split i size).segsFrom 0 i = m.segsFrom 0 i :=
    MallocMap.segsFrom_congr fun j hj => by
      rw [Nat.zero_add, MallocMap.objs_split_of_lt hi.le hj]
  have hoff : (m.split i size).offset i = m.offset i :=
    MallocMap.offset_congr fun j hj => MallocMap.objs_split_of_lt hi.le hj
  have hhigh : (m.split i size).segsFrom (i + 2) (m.mallocObjCount - (i + 1)) =
      m.segsFrom (i + 1) (m.mallocObjCount - (i + 1)) :=
    MallocMap.segsFrom_congr fun j hj => MallocMap.objs_split_add hi.le (by omega)
  have hmid : used ((m.split i size).offset i) ((m.split i size).segsFrom i 2) =
      [(m.offset i, (m.split i size).size i)] := by
    have h₁ : ((m.split i size).objs i).used = true := MallocMap.used_split_self hi.le
    have h₂ : ((m.split i size).objs (i + 1)).used = false :=
      (MallocMap.used_split_succ hi.le).trans hu
    simp [MallocMap.segsFrom_succ, MallocMap.seg, h₁, h₂, hoff]
  rw [MallocMap.usedBlocks_cut _ (i := i) (k := 2) (by omega), hcount, hlow, hmid,
    show m.mallocObjCount + 1 - (i + 2) = m.mallocObjCount - (i + 1) by omega, hhigh,
    offset_split hi hlt (Nat.lt_succ_self i) hi, List.append_assoc]
  rfl

/-- Taking an unused object whole does the same. -/
theorem usedBlocks_setObj {m : MallocMap} {i : ℕ} (hi : i < m.mallocObjCount) :
    (m.setObj i { m.objs i with used := true }).usedBlocks =
      used 0 (m.segsFrom 0 i) ++ (m.offset i, m.size i) ::
        used (m.offset (i + 1)) (m.segsFrom (i + 1) (m.mallocObjCount - (i + 1))) := by
  set m' := m.setObj i { m.objs i with used := true }
  have hobj : ∀ j, j ≠ i → m'.objs j = m.objs j := fun j hj => m.objs_setObj_of_ne hj _
  have hself : m'.objs i = { m.objs i with used := true } := m.objs_setObj_self i _
  have hsize : m'.size i = m.size i := congrFun (m.size_setObj_used i) i
  have hoff : m'.offset i = m.offset i := m.offset_setObj_used i i
  have hmid : used (m'.offset i) (m'.segsFrom i 1) = [(m.offset i, m.size i)] := by
    simp [MallocMap.segsFrom_succ, MallocMap.seg, hsize, hself, hoff]
  rw [m'.usedBlocks_cut (i := i) (k := 1) hi, hmid, m.offset_setObj_used i (i + 1),
    MallocMap.segsFrom_congr (m := m) (i := 0) fun j hj => hobj _ (by omega),
    MallocMap.segsFrom_congr (m := m) (i := i + 1) fun j hj => hobj _ (by omega),
    List.append_assoc]
  rfl

theorem usedBlocks_scanned (m : MallocMap) (a k : ℕ) :
    (m.scanned a k).usedBlocks = m.usedBlocks := rfl

/-- **A successful `syscall_malloc` adds one object** and moves none. -/
theorem usedBlocks_malloc {m : MallocMap} {size : BitVec 32} {i : ℕ}
    (hfit : m.firstFit size.toNat = some i) (hp : (m.syscallMalloc size).1 ≠ 0) :
    (m.syscallMalloc size).1 = m.addr i ∧
      size.toNat ≤ (m.syscallMalloc size).2.size i * mallocBlockSize ∧
      ∃ U₁ U₂, m.usedBlocks = U₁ ++ U₂ ∧ (m.syscallMalloc size).2.usedBlocks =
        U₁ ++ (m.offset i, (m.syscallMalloc size).2.size i) :: U₂ := by
  obtain ⟨hi, ⟨hu, hle⟩, -⟩ := MallocMap.firstFit_eq_some.mp hfit
  have hoff : ∀ j, (m.scanned 0 (i + 1)).offset j = m.offset j := fun j =>
    MallocMap.offset_congr fun _ _ => rfl
  have heq : m.syscallMalloc size = (m.scanned 0 (i + 1)).take size.toNat i := by
    rw [MallocMap.syscallMalloc_eq, hfit]
  rw [MallocMap.take_scanned] at heq
  by_cases hlt : size.toNat < m.size i * mallocBlockSize
  · rw [if_pos hlt] at heq
    by_cases hfull : m.mallocObjCount = mallocObjNum
    · rw [if_pos hfull] at heq
      rw [heq] at hp
      exact absurd rfl hp
    · rw [if_neg hfull] at heq
      rw [heq]
      have hself : ((m.scanned 0 (i + 1)).split i size.toNat).size i = size.toNat / 32 + 1 :=
        size_split_self (m := m.scanned 0 (i + 1)) hi.le hlt
      refine ⟨rfl, ?_, _, _, usedBlocks_of_unused hi hu, ?_⟩
      · show size.toNat ≤ ((m.scanned 0 (i + 1)).split i size.toNat).size i * mallocBlockSize
        rw [hself, mallocBlockSize]
        omega
      · have h := usedBlocks_split (m := m.scanned 0 (i + 1)) hi hu hlt
        rw [hoff, hoff] at h
        exact h
  · rw [if_neg hlt] at heq
    rw [heq]
    have hself : ((m.scanned 0 (i + 1)).setObj i { m.objs i with used := true }).size i =
        m.size i := congrFun ((m.scanned 0 (i + 1)).size_setObj_used i) i
    refine ⟨rfl, by rw [hself]; exact hle, _, _, usedBlocks_of_unused hi hu, ?_⟩
    have h := usedBlocks_setObj (m := m.scanned 0 (i + 1)) hi
    rw [hoff, hoff] at h
    rw [hself]
    exact h

/-- The used objects among those a release merges: the released one, if it was used at all. -/
theorem used_merged (m : MallocMap) (i : ℕ) :
    used (m.offset (m.target i)) (m.segsFrom (m.target i) (1 + m.move i)) =
      if (m.objs i).used then [(m.offset i, m.size i)] else [] := by
  rcases m.merge_cases i with ⟨-, -, hm, ht, -⟩ | ⟨-, hu, -, hm, ht, -⟩ |
    ⟨-, ⟨k, rfl, hk, ht⟩, hm, -⟩ | ⟨-, hu, ⟨k, rfl, hk, ht⟩, hm, -⟩
  · simp [ht, hm, MallocMap.segsFrom_succ, MallocMap.seg]
  · simp [ht, hm, MallocMap.segsFrom_succ, MallocMap.seg, hu]
  · simp [ht, hm, MallocMap.segsFrom_succ, MallocMap.seg, hk]
  · simp [ht, hm, MallocMap.segsFrom_succ, MallocMap.seg, hu, hk]

/-- **A release that merges well removes one object**, the one at entry `i`, and moves none. -/
theorem usedBlocks_release {m : MallocMap} {i : ℕ} (h : Tiled m) (hi : i < m.mallocObjCount)
    (hpos : ∀ k, i = k + 1 → 0 < m.size k) (hfits : MergeFits m i) :
    ∃ U₁ U₂, m.usedBlocks = U₁ ++ (if (m.objs i).used then [(m.offset i, m.size i)] else []) ++ U₂ ∧
      (m.release i).usedBlocks = U₁ ++ U₂ ∧ ∀ u ∈ U₁, ∃ j < i, u = (m.offset j, m.size j) := by
  have hrel := (tiled_release_iff h hi.le hpos).mpr hfits
  have hlow : ∀ k ≤ m.target i, (m.release i).segsFrom 0 k = m.segsFrom 0 k := fun k hk =>
    MallocMap.segsFrom_congr fun j hj => by
      rw [MallocMap.objs_release, if_neg (by omega), if_neg (by omega)]
  have hbelow : ∀ k ≤ i, ∀ u ∈ used 0 (m.segsFrom 0 k), ∃ j < i, u = (m.offset j, m.size j) := by
    intro k hk u hu
    obtain ⟨j, -, hj, -, rfl⟩ := MallocMap.mem_used_segsFrom (i := 0) |>.mp hu
    exact ⟨j, by omega, rfl⟩
  have htarget : m.target i ≤ i := by
    unfold MallocMap.target
    split <;> omega
  by_cases hlt : m.target i < m.mallocObjCount - m.move i
  · -- the merged object stays in the map
    have hsize := (tiled_release_iff_of_lt h hi.le hlt).mp hrel
    have hhigh : (m.release i).segsFrom (m.target i + 1)
        (m.mallocObjCount - m.move i - (m.target i + 1)) =
        m.segsFrom (m.target i + (1 + m.move i))
          (m.mallocObjCount - (m.target i + (1 + m.move i))) := by
      rw [show m.mallocObjCount - m.move i - (m.target i + 1) =
        m.mallocObjCount - (m.target i + (1 + m.move i)) by omega]
      refine MallocMap.segsFrom_congr fun j hj => ?_
      rw [MallocMap.objs_release, if_neg (by omega), if_pos (by omega),
        show m.target i + 1 + j + m.move i = m.target i + (1 + m.move i) + j by omega]
    have hunused : ((m.release i).objs (m.target i)).used = false := by
      rw [MallocMap.objs_release, if_pos rfl]
    have hcount := m.release_mallocObjCount i
    have hoff : (m.release i).offset (m.target i + 1) = m.offset (m.target i + (1 + m.move i)) := by
      rw [MallocMap.offset_succ, offset_release_of_le (le_refl _), size_release_target, hsize,
        Nat.add_assoc]
    refine ⟨used 0 (m.segsFrom 0 (m.target i)), used (m.offset (m.target i + (1 + m.move i)))
      (m.segsFrom (m.target i + (1 + m.move i))
        (m.mallocObjCount - (m.target i + (1 + m.move i)))), ?_, ?_, hbelow _ htarget⟩
    · rw [m.usedBlocks_cut (i := m.target i) (k := 1 + m.move i) (by omega), used_merged]
    · rw [usedBlocks_of_unused (by omega) hunused, hcount, hlow _ (le_refl _), hhigh, hoff]
  · -- the merged object is dropped, which is right only when it is empty
    rcases m.merge_cases i with ⟨-, -, hm, ht, -⟩ | ⟨-, hu, -, hm, ht, -⟩ |
      ⟨-, ⟨k, rfl, hk, ht⟩, hm, -⟩ | ⟨-, hu, ⟨k, rfl, hk, ht⟩, hm, -⟩
    · omega
    · refine ⟨used 0 (m.segsFrom 0 i), [], ?_, ?_, hbelow i (le_refl _)⟩
      · have hone : used (m.offset i) (m.segsFrom i 1) =
            if (m.objs i).used then [(m.offset i, m.size i)] else [] := by
          simp [MallocMap.segsFrom_succ, MallocMap.seg]
        rw [m.usedBlocks_cut (i := i) (k := 1) (by omega), hone,
          show m.mallocObjCount - (i + 1) = 0 by omega, MallocMap.segsFrom_zero, used_nil]
      · rw [MallocMap.usedBlocks, MallocMap.release_mallocObjCount, hm,
          show m.mallocObjCount - 1 = i by omega, hlow i (by omega), List.append_nil]
    · omega
    · exfalso
      have := (hfits.last_empty (by omega) hu).2 k rfl
      rw [hk] at this
      exact absurd this (by simp)

/-! ## A process and its allocations -/

/-- An allocation held by the process: the pointer `syscall_malloc` returned, the number of bytes
asked for, and the number of bytes of the object it designates. -/
structure Alloc where
  ptr : ℕ
  asked : ℕ
  bytes : ℕ
  deriving DecidableEq

/-- The addresses of an allocation. -/
def Alloc.block (a : Alloc) : Set ℕ := Set.Ico a.ptr (a.ptr + a.bytes)

/-- A process: its map, and the allocations it has received and not freed. -/
structure Client where
  map : MallocMap
  live : List Alloc

/-- What a process asks for. -/
inductive Request where
  | malloc (size : BitVec 32)
  | free (a : Alloc)
  deriving DecidableEq

/-- A pointer other than `NULL` designates the object at the entry `syscall_malloc` settled on. -/
def Client.serve (s : Client) : Request → Client
  | .malloc size =>
    let r := s.map.syscallMalloc size
    match s.map.firstFit size.toNat with
    | none => ⟨r.2, s.live⟩
    | some i =>
      if r.1 = 0 then ⟨r.2, s.live⟩
      else ⟨r.2, ⟨r.1, size.toNat, r.2.size i * mallocBlockSize⟩ :: s.live⟩
  | .free a => ⟨(s.map.syscallFree a.ptr).2, s.live.erase a⟩

/-- The process as `_syscall_execute` starts it. -/
def Client.start (stale : ℕ → MallocObj) : Client := ⟨fresh stale, []⟩

/-- **Separation.**  Every allocation is as large as asked for and lies inside the heap, and no two
of them overlap. -/
structure Separated (s : Client) : Prop where
  large : ∀ a ∈ s.live, a.asked ≤ a.bytes
  inside : ∀ a ∈ s.live, a.block ⊆ Set.Ico heapStart heapEnd
  disjoint : s.live.Pairwise fun a b => Disjoint a.block b.block

/-- A process frees only what it holds. -/
def Holds (s : Client) : Request → Prop
  | .malloc _ => True
  | .free a => a ∈ s.live

instance (s : Client) : (r : Request) → Decidable (Holds s r)
  | .malloc _ => inferInstanceAs (Decidable True)
  | .free a => inferInstanceAs (Decidable (a ∈ s.live))

/-- What a request must find: the process holds what it frees, and the free merges well. -/
def ServesWell (s : Client) (r : Request) : Prop :=
  Holds s r ∧ match r with
    | .malloc _ => True
    | .free a => MergesWell s.map (.free a.ptr)

/-- The address of a used object. -/
def blockAddr (u : ℕ × ℕ) : ℕ := heapStart + u.1 * mallocBlockSize

/-- **The link between the map and the allocations held.** -/
structure Linked (s : Client) : Prop where
  tiled : Tiled s.map
  large : ∀ a ∈ s.live, a.asked ≤ a.bytes
  object : ∀ a ∈ s.live, 0 < a.bytes →
    ∃ u ∈ s.map.usedBlocks, a.ptr = blockAddr u ∧ a.bytes = u.2 * mallocBlockSize
  distinct : s.live.Pairwise fun a b => 0 < a.bytes → 0 < b.bytes → a.ptr ≠ b.ptr
  count : ∀ p, s.live.countP (fun a => a.ptr = p) ≤
    s.map.usedBlocks.countP (fun u => blockAddr u = p)

theorem linked_start (stale : ℕ → MallocObj) : Linked (Client.start stale) where
  tiled := tiled_fresh stale
  large := by simp [Client.start]
  object := by simp [Client.start]
  distinct := List.Pairwise.nil
  count := by simp [Client.start]

theorem Linked.separated {s : Client} (h : Linked s) : Separated s := by
  have htotal : total (s.map.segsFrom 0 s.map.mallocObjCount) = mallocHeapSize := by
    rw [MallocMap.total_segsFrom_zero, h.tiled.offset_eq]
  refine ⟨h.large, fun a ha x hx => ?_, ?_⟩
  · obtain ⟨h₁, h₂⟩ : a.ptr ≤ x ∧ x < a.ptr + a.bytes := hx
    obtain ⟨u, hu, hptr, hbytes⟩ := h.object a ha (by omega)
    have hmem := (mem_used hu).2
    rw [htotal, show mallocHeapSize = 8192 from rfl] at hmem
    rw [hptr, blockAddr, mallocBlockSize] at h₁ h₂
    rw [hbytes, mallocBlockSize] at h₂
    have hend : heapEnd = heapStart + 8192 * 32 := rfl
    rw [Set.mem_Ico, hend]
    omega
  · refine h.distinct.imp_of_mem ?_
    intro a b ha hb hne
    rw [Set.disjoint_left]
    rintro x ⟨h₁, h₂⟩ ⟨h₃, h₄⟩
    have hpa : 0 < a.bytes := by omega
    have hpb : 0 < b.bytes := by omega
    obtain ⟨u, hu, hup, hub⟩ := h.object a ha hpa
    obtain ⟨v, hv, hvp, hvb⟩ := h.object b hb hpb
    have huv : u ≠ v := by
      rintro rfl
      exact hne hpa hpb (hup.trans hvp.symm)
    -- two different used objects of the map lie one after the other
    have hsep : u.1 + u.2 ≤ v.1 ∨ v.1 + v.2 ≤ u.1 := by
      have hpair : s.map.usedBlocks.Pairwise fun u v => u.1 + u.2 ≤ v.1 ∨ v.1 + v.2 ≤ u.1 :=
        s.map.pairwise_usedBlocks.imp fun h' => Or.inl h'
      have : Std.Symm fun u v : ℕ × ℕ => u.1 + u.2 ≤ v.1 ∨ v.1 + v.2 ≤ u.1 := ⟨fun _ _ h' => h'.symm⟩
      exact hpair.forall hu hv huv
    rw [hup, blockAddr, mallocBlockSize] at h₁ h₂
    rw [hvp, blockAddr, mallocBlockSize] at h₃ h₄
    rw [hub, mallocBlockSize] at h₂
    rw [hvb, mallocBlockSize] at h₄
    omega

/-! ## Serving one request -/

/-- A `NULL` leaves the used objects alone. -/
theorem usedBlocks_malloc_null {m : MallocMap} {size : BitVec 32}
    (hp : (m.syscallMalloc size).1 = 0) : (m.syscallMalloc size).2.usedBlocks = m.usedBlocks := by
  rw [MallocMap.syscallMalloc_eq] at hp ⊢
  cases hfit : m.firstFit size.toNat with
  | none => rfl
  | some i =>
    rw [hfit] at hp
    simp only [MallocMap.take_scanned] at hp ⊢
    have haddr : m.addr i ≠ 0 := by
      rw [MallocMap.addr, heapStart]
      omega
    split at hp
    · rename_i hlt
      rw [if_pos hlt]
      split at hp
      · rename_i hfull
        rw [if_pos hfull]
        exact usedBlocks_scanned m _ _
      · exact absurd hp haddr
    · exact absurd hp haddr

/-- The link looks at the map only through its tiling and its used objects. -/
theorem Linked.of_usedBlocks {s : Client} (h : Linked s) {m : MallocMap} (ht : Tiled m)
    (hu : m.usedBlocks = s.map.usedBlocks) : Linked ⟨m, s.live⟩ where
  tiled := ht
  large := h.large
  object := by
    show ∀ a ∈ s.live, 0 < a.bytes → ∃ u ∈ m.usedBlocks, _
    rw [hu]
    exact h.object
  distinct := h.distinct
  count := by
    show ∀ p, _ ≤ m.usedBlocks.countP _
    rw [hu]
    exact h.count

/-- Two objects that are not empty are at different addresses. -/
theorem blockAddr_ne_of_mem {m : MallocMap} {U₁ U₂ : List (ℕ × ℕ)} {u v : ℕ × ℕ}
    (hU : m.usedBlocks = U₁ ++ u :: U₂) (hv : v ∈ U₁ ++ U₂) (hupos : 0 < u.2) (hvpos : 0 < v.2) :
    blockAddr u ≠ blockAddr v := by
  have hpair := MallocMap.pairwise_usedBlocks m
  rw [hU, List.pairwise_append, List.pairwise_cons] at hpair
  have hne : u.1 ≠ v.1 := by
    rcases List.mem_append.mp hv with hv | hv
    · have hbefore := hpair.2.2 v hv u (List.mem_cons_self ..)
      omega
    · have hafter := hpair.2.1.1 v hv
      omega
  rw [blockAddr, blockAddr, mallocBlockSize]
  omega

theorem linked_malloc {s : Client} (h : Linked s) (size : BitVec 32) :
    Linked (s.serve (.malloc size)) := by
  have htiled := tiled_syscallMalloc h.tiled size
  by_cases hp : (s.map.syscallMalloc size).1 = 0
  · have hnull : s.serve (.malloc size) = ⟨(s.map.syscallMalloc size).2, s.live⟩ := by
      simp only [Client.serve, if_pos hp]
      split <;> rfl
    rw [hnull]
    exact h.of_usedBlocks htiled (usedBlocks_malloc_null hp)
  cases hfit : s.map.firstFit size.toNat with
  | none =>
    exfalso
    rw [MallocMap.syscallMalloc_eq, hfit] at hp
    exact hp rfl
  | some i =>
    obtain ⟨hptr, hlarge, U₁, U₂, hU, hU'⟩ := usedBlocks_malloc hfit hp
    simp only [Client.serve, hfit, if_neg hp]
    set m := (s.map.syscallMalloc size).2
    set a : Alloc := ⟨(s.map.syscallMalloc size).1, size.toNat, m.size i * mallocBlockSize⟩ with ha
    set u : ℕ × ℕ := (s.map.offset i, m.size i) with hu
    have hau : a.ptr = blockAddr u := hptr
    have hkeep : ∀ v ∈ s.map.usedBlocks, v ∈ m.usedBlocks := by
      intro v hv
      rw [hU, List.mem_append] at hv
      rw [hU', List.mem_append, List.mem_cons]
      tauto
    refine ⟨htiled, ?_, ?_, ?_, ?_⟩
    · rintro b (_ | ⟨_, hb⟩)
      · exact hlarge
      · exact h.large b hb
    · rintro b (_ | ⟨_, hb⟩) hpos
      · exact ⟨u, by rw [hU']; simp, hau, rfl⟩
      · obtain ⟨v, hv, hbv⟩ := h.object b hb hpos
        exact ⟨v, hkeep v hv, hbv⟩
    · refine List.pairwise_cons.mpr ⟨fun b hb hapos hbpos => ?_, h.distinct⟩
      obtain ⟨v, hv, hbp, hbb⟩ := h.object b hb hbpos
      have hupos : 0 < u.2 := by
        have : 0 < u.2 * mallocBlockSize := hapos
        exact Nat.pos_of_mul_pos_right this
      have hvpos : 0 < v.2 := by
        rw [hbb] at hbpos
        exact Nat.pos_of_mul_pos_right hbpos
      rw [hU] at hv
      rw [hau, hbp]
      exact blockAddr_ne_of_mem hU' hv hupos hvpos
    · intro p
      have hcount := h.count p
      rw [hU, List.countP_append] at hcount
      rw [hU', List.countP_append, List.countP_cons, List.countP_cons, hau]
      omega

/-- The entry a free of a live pointer finds: an object at that address, and not the end of the
heap. -/
theorem freeIndex_of_live {s : Client} (h : Linked s) {a : Alloc} (ha : a ∈ s.live) :
    a.ptr ≠ 0 ∧ s.map.freeIndex a.ptr < s.map.mallocObjCount ∧
      s.map.addr (s.map.freeIndex a.ptr) = a.ptr := by
  have hone : 0 < s.live.countP fun b => b.ptr = a.ptr :=
    List.countP_pos_iff.mpr ⟨a, ha, by simp⟩
  obtain ⟨u, hu, hua⟩ := List.countP_pos_iff.mp (lt_of_lt_of_le hone (h.count a.ptr))
  obtain ⟨j, hj, -, rfl⟩ := MallocMap.mem_usedBlocks.mp hu
  have haddr : s.map.addr j = a.ptr := of_decide_eq_true hua
  refine ⟨?_, ?_, s.map.addr_freeIndex_of_addr a.ptr hj haddr⟩
  · rw [← haddr, MallocMap.addr, heapStart]
    omega
  · exact lt_of_le_of_lt (s.map.freeIndex_le_of_addr a.ptr (le_of_eq haddr.symm)) hj

/-- An object that is not empty is alone at its address, if those before it lie below. -/
theorem alone_at_addr {m : MallocMap} {i : ℕ} {U₁ U₂ : List (ℕ × ℕ)}
    (hU : m.usedBlocks = U₁ ++ [(m.offset i, m.size i)] ++ U₂)
    (hlow : ∀ v ∈ U₁, ∃ j < i, v = (m.offset j, m.size j))
    (hbelow : ∀ j < i, m.addr j < m.addr i) (hsize : 0 < m.size i) :
    (U₁ ++ U₂).countP (fun v => blockAddr v = m.addr i) = 0 := by
  rw [List.countP_eq_zero]
  intro v hv hva
  have hva : blockAddr v = m.addr i := of_decide_eq_true hva
  rcases List.mem_append.mp hv with hv | hv
  · obtain ⟨j, hj, rfl⟩ := hlow v hv
    have hlt : blockAddr (m.offset j, m.size j) < m.addr i := hbelow j hj
    exact absurd hva (Nat.ne_of_lt hlt)
  · have hpair := MallocMap.pairwise_usedBlocks m
    rw [hU, List.pairwise_append] at hpair
    have hafter := hpair.2.2 _ (List.mem_append_right _ (List.mem_singleton_self _)) v hv
    rw [blockAddr, MallocMap.addr, mallocBlockSize] at hva
    omega

/-- The used objects at an address, with and without the one that is released. -/
theorem countP_usedBlocks {m : MallocMap} {i : ℕ} {U₁ U₂ : List (ℕ × ℕ)}
    (hU : m.usedBlocks = U₁ ++ (if (m.objs i).used then [(m.offset i, m.size i)] else []) ++ U₂)
    (p : ℕ) : m.usedBlocks.countP (fun u => blockAddr u = p) =
      (U₁ ++ U₂).countP (fun u => blockAddr u = p) +
        if (m.objs i).used ∧ m.addr i = p then 1 else 0 := by
  have hself : blockAddr (m.offset i, m.size i) = m.addr i := rfl
  rw [hU, List.countP_append, List.countP_append, List.countP_append]
  by_cases hu : (m.objs i).used = true
  · simp only [hu, if_true, List.countP_cons, List.countP_nil, hself, true_and, Nat.zero_add,
      decide_eq_true_eq]
    omega
  · simp [hu]

/-- The allocations at an address, with and without one of them. -/
theorem countP_ptr_of_mem {l : List Alloc} {a : Alloc} (ha : a ∈ l) (p : ℕ) :
    l.countP (fun b => b.ptr = p) =
      (l.erase a).countP (fun b => b.ptr = p) + if a.ptr = p then 1 else 0 := by
  rw [(List.perm_cons_erase ha).countP_eq, List.countP_cons]
  simp only [decide_eq_true_eq]

/-- The object of another allocation is not the one that is released: if it is not empty, this is alone
at its address, where there is an object for each of the two. -/
theorem Linked.object_of_other {s : Client} (h : Linked s) {a b : Alloc} (ha : a ∈ s.live)
    (hb : b ∈ s.live.erase a) (hbpos : 0 < b.bytes) {i : ℕ} {U₁ U₂ : List (ℕ × ℕ)}
    (haddr : s.map.addr i = a.ptr)
    (hU : s.map.usedBlocks =
      U₁ ++ (if (s.map.objs i).used then [(s.map.offset i, s.map.size i)] else []) ++ U₂)
    (hlow : ∀ v ∈ U₁, ∃ j < i, v = (s.map.offset j, s.map.size j))
    (hbelow : ∀ j < i, s.map.addr j < s.map.addr i) :
    ∃ u ∈ U₁ ++ U₂, b.ptr = blockAddr u ∧ b.bytes = u.2 * mallocBlockSize := by
  obtain ⟨u, hu, hbp, hbb⟩ := h.object b (List.mem_of_mem_erase hb) hbpos
  refine ⟨u, ?_, hbp, hbb⟩
  by_contra hmem
  rw [List.mem_append, not_or] at hmem
  have hmid : (s.map.objs i).used = true ∧ u = (s.map.offset i, s.map.size i) := by
    rw [hU, List.mem_append, List.mem_append] at hu
    rcases hu with (hu | hu) | hu
    · exact absurd hu hmem.1
    · split at hu
      · exact ⟨‹_›, List.mem_singleton.mp hu⟩
      · exact absurd hu List.not_mem_nil
    · exact absurd hu hmem.2
  obtain ⟨hused, rfl⟩ := hmid
  have hab : b.ptr = a.ptr := hbp.trans haddr
  have hsize : 0 < s.map.size i := by
    rw [hbb] at hbpos
    exact Nat.pos_of_mul_pos_right hbpos
  have hlone : (U₁ ++ U₂).countP (fun v => blockAddr v = a.ptr) = 0 := by
    rw [if_pos hused] at hU
    rw [← haddr]
    exact alone_at_addr hU hlow hbelow hsize
  have htwo : 0 < (s.live.erase a).countP (fun b => b.ptr = a.ptr) :=
    List.countP_pos_iff.mpr ⟨b, hb, by simp [hab]⟩
  have hcount := h.count a.ptr
  rw [countP_usedBlocks hU, countP_ptr_of_mem ha, hlone, if_pos rfl] at hcount
  split at hcount <;> omega

/-- A free that merges well gives back the object at its address and no other allocation's. -/
theorem linked_free {s : Client} (h : Linked s) {a : Alloc} (ha : a ∈ s.live)
    (hwell : MergesWell s.map (.free a.ptr)) : Linked (s.serve (.free a)) := by
  obtain ⟨hne, hi, haddr⟩ := freeIndex_of_live h ha
  have hbelow := fun t => s.map.addr_lt_of_lt_freeIndex a.ptr (t := t)
  have hpos : ∀ k, s.map.freeIndex a.ptr = k + 1 → 0 < s.map.size k := fun k hk =>
    s.map.size_pos_of_freeIndex a.ptr hk haddr
  have hfits := hwell hne haddr
  set i := s.map.freeIndex a.ptr
  have hserve : s.serve (.free a) = ⟨(s.map.scanned 0 i).release i, s.live.erase a⟩ := by
    simp only [Client.serve, MallocMap.syscallFree_eq, if_neg hne]
    rw [if_neg (not_not.mpr haddr)]
  have htiled : Tiled ((s.map.scanned 0 i).release i) :=
    (tiled_release_iff ((tiled_scanned ..).mpr h.tiled) hi.le hpos).mpr (mergeFits_scanned.mpr hfits)
  obtain ⟨U₁, U₂, hU, hU', hlow⟩ := usedBlocks_release ((tiled_scanned s.map 0 i).mpr h.tiled) hi
    hpos (mergeFits_scanned.mpr hfits)
  rw [usedBlocks_scanned] at hU
  have hoff : ∀ j, (s.map.scanned 0 i).offset j = s.map.offset j := fun j =>
    MallocMap.offset_congr fun _ _ => rfl
  rw [hoff, MallocMap.scanned_size, MallocMap.scanned_objs] at hU
  simp only [hoff, MallocMap.scanned_size] at hlow
  rw [hserve]
  refine ⟨htiled, fun b hb => h.large b (List.mem_of_mem_erase hb), fun b hb hbpos => ?_,
    h.distinct.sublist List.erase_sublist, fun p => ?_⟩
  · rw [← haddr] at hbelow
    rw [hU']
    exact h.object_of_other ha hb hbpos haddr hU hlow hbelow
  · have hcount := h.count p
    rw [countP_usedBlocks hU, haddr, countP_ptr_of_mem ha] at hcount
    show (s.live.erase a).countP _ ≤ ((s.map.scanned 0 i).release i).usedBlocks.countP _
    rw [hU']
    by_cases hp : a.ptr = p
    · rw [if_pos hp] at hcount
      split at hcount <;> omega
    · rw [if_neg hp, if_neg fun h' => hp h'.2] at hcount
      exact hcount

/-! ## Whole runs -/

theorem linked_serve {s : Client} (h : Linked s) (r : Request) (hr : ServesWell s r) :
    Linked (s.serve r) := by
  cases r with
  | malloc size => exact linked_malloc h size
  | free a => exact linked_free h hr.1 hr.2

/-- **Separation over whole runs.**  A process that frees only what it holds, and whose frees all
merge well, has separated allocations in every state it passes through. -/
theorem always_separated (stale : ℕ → MallocObj) (rs : List Request)
    (h : Meets Client.serve ServesWell (Client.start stale) rs) :
    Always Client.serve Separated (Client.start stale) rs := by
  have hlinked := always_of_meets (I := Linked) (fun _ r hs hr => linked_serve hs r hr)
    (linked_start stale) h
  exact fun rs' hrs' => (hlinked rs' hrs').separated

/-- A process allocates 100 bytes three times and gives the first two blocks back.  The second of them is
merged with the first, between two blocks of the same size, and has room for 200 bytes then. -/
theorem always_separated_merge :
    let s₀ := Client.start fun _ => ⟨true, 0⟩
    let rs := [Request.malloc 100, .malloc 100, .malloc 100, .free ⟨heapStart, 100, 128⟩,
      .free ⟨heapStart + 128, 100, 128⟩, .malloc 200]
    Meets Client.serve ServesWell s₀ rs ∧ Always Client.serve Separated s₀ rs ∧
      (run Client.serve s₀ rs).live = [⟨heapStart, 200, 224⟩, ⟨heapStart + 256, 100, 128⟩] := by
  intro s₀ rs
  obtain ⟨s₃, hs₃⟩ : ∃ s, s = run Client.serve s₀ [.malloc 100, .malloc 100, .malloc 100] := ⟨_, rfl⟩
  obtain ⟨s₄, hs₄⟩ : ∃ s, s = s₃.serve (.free ⟨heapStart, 100, 128⟩) := ⟨_, rfl⟩
  have hwell₃ : ServesWell s₃ (.free ⟨heapStart, 100, 128⟩) := by
    have hcount : s₃.map.mallocObjCount = 4 := hs₃ ▸ by decide
    have hindex : s₃.map.freeIndex heapStart = 0 := hs₃ ▸ by decide
    refine ⟨hs₃ ▸ by decide, fun _ _ => ?_⟩
    rw [hindex]
    exact ⟨fun _ _ hk => absurd hk (by omega), fun _ _ hk => absurd hk (by omega),
      fun hlast => absurd hlast (by omega)⟩
  have hwell₄ : ServesWell s₄ (.free ⟨heapStart + 128, 100, 128⟩) := by
    have hcount : s₄.map.mallocObjCount = 4 := hs₄ ▸ hs₃ ▸ by decide
    have hindex : s₄.map.freeIndex (heapStart + 128) = 1 := hs₄ ▸ hs₃ ▸ by decide
    have hsize : s₄.map.size 2 = s₄.map.size 0 := hs₄ ▸ hs₃ ▸ by decide
    refine ⟨hs₄ ▸ hs₃ ▸ by decide, fun _ _ => ?_⟩
    rw [hindex]
    refine ⟨fun hend => absurd hend (by omega), fun _ k hk _ => ?_, fun hlast => absurd hlast (by omega)⟩
    obtain rfl : k = 0 := (Nat.succ.inj hk).symm
    exact hsize
  have hrest : Meets Client.serve ServesWell s₃ [.free ⟨heapStart, 100, 128⟩,
      .free ⟨heapStart + 128, 100, 128⟩, .malloc 200] := by
    refine ⟨hwell₃, ?_⟩
    rw [← hs₄]
    exact ⟨hwell₄, ⟨trivial, trivial⟩, trivial⟩
  have h : Meets Client.serve ServesWell s₀ rs := by
    refine (meets_append s₀ [Request.malloc 100, .malloc 100, .malloc 100] _).mpr ⟨?_, ?_⟩
    · exact ⟨⟨trivial, trivial⟩, ⟨trivial, trivial⟩, ⟨trivial, trivial⟩, trivial⟩
    · rw [← hs₃]
      exact hrest
  exact ⟨h, always_separated _ _ h, by decide⟩

/-- **The failing history.**  Two blocks of 32 bytes and one of 320 are allocated and the first two
freed, the lower one first.  The second free adds the size of the third block to the merged object
instead of the size of the first, and an allocation of 320 bytes then fits in front of, and over,
the third block. -/
theorem not_always_separated :
    ¬ ∀ (stale : ℕ → MallocObj) (rs : List Request),
      Meets Client.serve Holds (Client.start stale) rs →
        Always Client.serve Separated (Client.start stale) rs := by
  intro h
  have hrun := (h (fun _ => ⟨true, 0⟩) [.malloc 0, .malloc 0, .malloc 319,
    .free ⟨heapStart, 0, 32⟩, .free ⟨heapStart + 32, 0, 32⟩, .malloc 320]
    ⟨trivial, trivial, trivial, by decide, by decide, trivial, trivial⟩).last
  have hlive : (run Client.serve (Client.start fun _ => ⟨true, 0⟩) [.malloc 0, .malloc 0,
      .malloc 319, .free ⟨heapStart, 0, 32⟩, .free ⟨heapStart + 32, 0, 32⟩, .malloc 320]).live =
      [⟨heapStart, 320, 352⟩, ⟨heapStart + 64, 319, 320⟩] := by decide
  have hdisj := hrun.disjoint
  rw [hlive, List.pairwise_pair] at hdisj
  rw [Set.disjoint_left] at hdisj
  -- the first byte of the third block belongs to both
  exact hdisj (a := heapStart + 64) ⟨by decide, by decide⟩ ⟨by decide, by decide⟩

end Heap
end CoreOS
