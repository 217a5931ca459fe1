import CoreOS.Heap.Tiling

/-!
# What one call does to the objects

The heap as a process sees it: a list of objects, each with its address, its size and its flag.

* `malloc_firstFit` says what `syscall_malloc` does to that list.  It carves the front off the first
  unused object that is large enough, or takes it whole, and leaves every other object where it is.
* `free_exact_iff` says when `syscall_free` does what its caller expects: give back the object at
  the pointer, merged with its unused neighbours, and refuse every other pointer.

The second does not always happen.  The walk of `syscall_free` looks for an address, not for a used
object, so it accepts the address of an unused object and the end of the heap; and the two merging
tests read the entry after the freed one, whichever side they merge with.
-/

namespace CoreOS
namespace Heap

/-- An object of the heap. -/
structure Obj where
  addr : ℕ
  size : ℕ
  used : Bool
  deriving DecidableEq

namespace MallocMap

/-- Entry `i` as an object. -/
def object (m : MallocMap) (i : ℕ) : Obj := ⟨m.addr i, m.size i, (m.objs i).used⟩

/-- `k` objects from entry `i` on. -/
def objectsFrom (m : MallocMap) (i k : ℕ) : List Obj := (List.range' i k).map m.object

/-- The objects of the heap, in address order. -/
def objects (m : MallocMap) : List Obj := m.objectsFrom 0 m.mallocObjCount

/-- The heap is the same: the trace of a call is not part of it. -/
def SameObjs (m m' : MallocMap) : Prop :=
  m'.objs = m.objs ∧ m'.mallocObjCount = m.mallocObjCount

@[simp] theorem length_objectsFrom (m : MallocMap) (i k : ℕ) : (m.objectsFrom i k).length = k := by
  simp [objectsFrom]

@[simp] theorem objectsFrom_zero (m : MallocMap) (i : ℕ) : m.objectsFrom i 0 = [] := rfl

theorem objectsFrom_succ (m : MallocMap) (i k : ℕ) :
    m.objectsFrom i (k + 1) = m.object i :: m.objectsFrom (i + 1) k := by
  rw [objectsFrom, List.range'_succ]
  rfl

theorem objectsFrom_add (m : MallocMap) (i k l : ℕ) :
    m.objectsFrom i (k + l) = m.objectsFrom i k ++ m.objectsFrom (i + k) l := by
  rw [objectsFrom, objectsFrom, objectsFrom, ← List.map_append, List.range'_append_1]

/-- The objects of the heap, cut at entry `i` and before the `k` objects that end it. -/
theorem objects_cut (m : MallocMap) {i j : ℕ} (hij : i ≤ j) (hj : j ≤ m.mallocObjCount) :
    m.objects = m.objectsFrom 0 i ++ m.objectsFrom i (j - i) ++
      m.objectsFrom j (m.mallocObjCount - j) := by
  have hcount : m.mallocObjCount = i + (j - i) + (m.mallocObjCount - j) := by omega
  conv_lhs => rw [objects, hcount, objectsFrom_add, objectsFrom_add]
  rw [Nat.zero_add, Nat.zero_add, show i + (j - i) = j by omega]

/-- Two stretches of entries with the same contents are the same objects if they start at the same
offset. -/
theorem objectsFrom_congr {m m' : MallocMap} {i i' k : ℕ}
    (hobjs : ∀ j < k, m'.objs (i' + j) = m.objs (i + j)) (hoff : m'.offset i' = m.offset i) :
    m'.objectsFrom i' k = m.objectsFrom i k := by
  induction k generalizing i i' with
  | zero => rfl
  | succ k ih =>
    have h0 : m'.objs i' = m.objs i := hobjs 0 (by omega)
    have hsize : m'.size i' = m.size i := by rw [size, size, h0]
    have hhead : m'.object i' = m.object i := by
      rw [object, object, addr, addr, hoff, hsize, h0]
    have htail : m'.objectsFrom (i' + 1) k = m.objectsFrom (i + 1) k := by
      refine ih (fun j hj => ?_) ?_
      · have := hobjs (j + 1) (by omega)
        rwa [← Nat.add_assoc, ← Nat.add_assoc, Nat.add_right_comm i', Nat.add_right_comm i] at this
      · rw [offset_succ, offset_succ, hoff, hsize]
    rw [objectsFrom_succ, objectsFrom_succ, hhead, htail]

theorem objectsFrom_zero_congr {m m' : MallocMap} {k : ℕ}
    (hobjs : ∀ j < k, m'.objs j = m.objs j) : m'.objectsFrom 0 k = m.objectsFrom 0 k := by
  refine objectsFrom_congr (fun j hj => ?_) rfl
  rw [Nat.zero_add]
  exact hobjs j hj

@[simp] theorem scanned_offset (m : MallocMap) (a k : ℕ) : (m.scanned a k).offset = m.offset :=
  funext fun _ => offset_congr fun _ _ => rfl

@[simp] theorem scanned_objectsFrom (m : MallocMap) (a k : ℕ) :
    (m.scanned a k).objectsFrom = m.objectsFrom := by
  funext i l
  exact objectsFrom_congr (fun _ _ => rfl) (by rw [scanned_offset])

theorem offset_add_sum_size (m : MallocMap) (i k : ℕ) :
    m.offset i + ((m.objectsFrom i k).map Obj.size).sum = m.offset (i + k) := by
  induction k generalizing i with
  | zero => rfl
  | succ k ih =>
    have h := ih (i + 1)
    rw [offset_succ] at h
    rw [objectsFrom_succ, List.map_cons, List.sum_cons, ← Nat.add_assoc,
      show i + (k + 1) = i + 1 + k by omega, ← h]
    rfl

theorem sum_size_objectsFrom (m : MallocMap) (k : ℕ) :
    ((m.objectsFrom 0 k).map Obj.size).sum = m.offset k := by
  have h := m.offset_add_sum_size 0 k
  rwa [offset_zero, Nat.zero_add, Nat.zero_add] at h

end MallocMap

/-- The sizes of the objects of a tiled heap add up to the heap. -/
theorem Tiled.sum_size_objects {m : MallocMap} (h : Tiled m) :
    (m.objects.map Obj.size).sum = mallocHeapSize := by
  rw [MallocMap.objects, m.sum_size_objectsFrom, h.offset_eq]

/-! ## `syscall_malloc` -/

/-- What is left of the unused object `o` when `n` bytes are taken from it. -/
def Obj.carve (o : Obj) (n : ℕ) : List Obj :=
  if n < 32 * o.size then
    [⟨o.addr, n / 32 + 1, true⟩, ⟨o.addr + 32 * (n / 32 + 1), o.size - (n / 32 + 1), false⟩]
  else [{ o with used := true }]

section carve

variable {m : MallocMap} {i n : ℕ}

theorem objects_split (hi : i < m.mallocObjCount) (hu : (m.objs i).used = false)
    (hlt : n < m.size i * mallocBlockSize) :
    (m.split i n).objects = m.objectsFrom 0 i ++ (m.object i).carve n ++
      m.objectsFrom (i + 1) (m.mallocObjCount - (i + 1)) := by
  have hlow : ∀ j < i, (m.split i n).objs j = m.objs j := fun j hj =>
    MallocMap.objs_split_of_lt hi.le hj
  have hself := size_split_self hi.le hlt
  have hsucc := size_split_succ hi.le hlt
  have haddr : (m.split i n).addr i = m.addr i := MallocMap.addr_congr hlow
  have hmid : (m.split i n).objectsFrom i 2 = (m.object i).carve n := by
    have h₁ : ((m.split i n).objs i).used = true := MallocMap.used_split_self hi.le
    have h₂ : ((m.split i n).objs (i + 1)).used = false :=
      (MallocMap.used_split_succ hi.le).trans hu
    have hlt' : n < 32 * (m.object i).size := by
      rw [Nat.mul_comm]
      exact hlt
    rw [Obj.carve, if_pos hlt', MallocMap.objectsFrom_succ, MallocMap.objectsFrom_succ,
      MallocMap.object, MallocMap.object, MallocMap.addr_succ, haddr, hself, hsucc, h₁, h₂,
      Nat.mul_comm (n / 32 + 1)]
    rfl
  have hhigh : (m.split i n).objectsFrom (i + 2) (m.mallocObjCount - (i + 1)) =
      m.objectsFrom (i + 1) (m.mallocObjCount - (i + 1)) :=
    MallocMap.objectsFrom_congr (fun j hj => MallocMap.objs_split_add hi.le (by omega))
      (offset_split hi hlt (by omega) hi)
  have hcount := m.split_mallocObjCount i n
  rw [MallocMap.objects_cut _ (i := i) (j := i + 2) (by omega) (by omega), hcount,
    show i + 2 - i = 2 by omega, show m.mallocObjCount + 1 - (i + 2) = m.mallocObjCount - (i + 1) by
      omega, hmid, hhigh, MallocMap.objectsFrom_zero_congr hlow]

theorem objects_setObj_used (hi : i < m.mallocObjCount)
    (hge : m.size i * mallocBlockSize ≤ n) :
    (m.setObj i { m.objs i with used := true }).objects =
      m.objectsFrom 0 i ++ (m.object i).carve n ++
        m.objectsFrom (i + 1) (m.mallocObjCount - (i + 1)) := by
  set m' := m.setObj i { m.objs i with used := true }
  have hobj : ∀ j, j ≠ i → m'.objs j = m.objs j := fun j hj => m.objs_setObj_of_ne hj _
  have hself : m'.objs i = { m.objs i with used := true } := m.objs_setObj_self i _
  have hsize : m'.size i = m.size i := congrFun (m.size_setObj_used i) i
  have hoff : m'.offset i = m.offset i := m.offset_setObj_used i i
  have hge' : ¬ n < 32 * (m.object i).size := by
    have : 32 * (m.object i).size ≤ n := by
      rw [Nat.mul_comm]
      exact hge
    omega
  have hmid : m'.objectsFrom i 1 = (m.object i).carve n := by
    rw [Obj.carve, if_neg hge', MallocMap.objectsFrom_succ, MallocMap.object, MallocMap.addr, hoff,
      hsize, hself]
    rfl
  have hhigh : m'.objectsFrom (i + 1) (m.mallocObjCount - (i + 1)) =
      m.objectsFrom (i + 1) (m.mallocObjCount - (i + 1)) :=
    MallocMap.objectsFrom_congr (fun j _ => hobj _ (by omega)) (m.offset_setObj_used i (i + 1))
  have hcount : m'.mallocObjCount = m.mallocObjCount := rfl
  rw [MallocMap.objects_cut _ (i := i) (j := i + 1) (by omega) (by omega), hcount,
    show i + 1 - i = 1 by omega, hmid, hhigh,
    MallocMap.objectsFrom_zero_congr fun j hj => hobj j (by omega)]

/-- Carving moves no block. -/
theorem sum_size_carve (o : Obj) (n : ℕ) : ((o.carve n).map Obj.size).sum = o.size := by
  unfold Obj.carve
  split
  · simp only [List.map_cons, List.map_nil, List.sum_cons, List.sum_nil]
    omega
  · simp

end carve

/-- An entry of the map and the cut of the object list at it say the same thing. -/
theorem objects_eq_append {m : MallocMap} {before after : List Obj} {o : Obj}
    (h : m.objects = before ++ o :: after) :
    before.length < m.mallocObjCount ∧ before = m.objectsFrom 0 before.length ∧
      o = m.object before.length ∧
      after = m.objectsFrom (before.length + 1) (m.mallocObjCount - (before.length + 1)) := by
  have hlen : m.mallocObjCount = before.length + (after.length + 1) := by
    have := congrArg List.length h
    simpa [MallocMap.objects] using this
  have hcut := m.objects_cut (i := before.length) (j := before.length + 1) (by omega) (by omega)
  rw [h, List.append_assoc, show before.length + 1 - before.length = 0 + 1 by omega,
    MallocMap.objectsFrom_succ, MallocMap.objectsFrom_zero] at hcut
  obtain ⟨hbefore, hrest⟩ := List.append_inj hcut (by simp)
  rw [List.singleton_append, List.cons.injEq] at hrest
  exact ⟨by omega, hbefore, hrest.1, hrest.2⟩

theorem mem_objects {m : MallocMap} {o : Obj} :
    o ∈ m.objects ↔ ∃ i < m.mallocObjCount, o = m.object i := by
  simp [MallocMap.objects, MallocMap.objectsFrom, List.mem_range'_1, eq_comm]

/-- The objects after a `syscall_malloc` that settles on entry `i`. -/
theorem objects_malloc {m : MallocMap} {i : ℕ} {n : BitVec 32} (hle : m.mallocObjCount ≤ 2046)
    (hfit : m.firstFit n.toNat = some i) :
    (m.syscallMalloc n).1 = m.addr i ∧
      (m.syscallMalloc n).2.objects = m.objectsFrom 0 i ++ (m.object i).carve n.toNat ++
        m.objectsFrom (i + 1) (m.mallocObjCount - (i + 1)) := by
  obtain ⟨hi, ⟨hu, -⟩, -⟩ := MallocMap.firstFit_eq_some.mp hfit
  rw [MallocMap.syscallMalloc_eq, hfit]
  simp only [MallocMap.take_scanned]
  have hobject : (m.scanned 0 (i + 1)).object i = m.object i := by
    rw [MallocMap.object, MallocMap.scanned_addr]
    rfl
  by_cases hlt : n.toNat < m.size i * mallocBlockSize
  · rw [if_pos hlt, if_neg (by rw [mallocObjNum]; omega)]
    have h := objects_split (m := m.scanned 0 (i + 1)) hi hu hlt
    rw [MallocMap.scanned_objectsFrom, hobject] at h
    exact ⟨rfl, h⟩
  · rw [if_neg hlt]
    have h := objects_setObj_used (m := m.scanned 0 (i + 1)) (n := n.toNat) hi
      (Nat.le_of_not_lt hlt)
    rw [MallocMap.scanned_objectsFrom, hobject, MallocMap.scanned_objs] at h
    exact ⟨rfl, h⟩

/-- **`syscall_malloc` is first fit and conservative.**  When no unused object holds `n` bytes it
returns `NULL` and changes nothing.  Otherwise it returns the address of the first one that does,
carves the front off it, and every other object keeps its address, its size, its flag and its
place. -/
theorem malloc_firstFit {m : MallocMap} (hle : m.mallocObjCount ≤ 2046)
    (hsum : (m.objects.map Obj.size).sum = mallocHeapSize) (n : BitVec 32) :
    ((∀ o ∈ m.objects, o.used = false → 32 * o.size < n.toNat) →
      (m.syscallMalloc n).1 = 0 ∧ m.SameObjs (m.syscallMalloc n).2) ∧
    ∀ before o after, m.objects = before ++ o :: after →
      o.used = false → n.toNat ≤ 32 * o.size →
      (∀ b ∈ before, b.used = false → 32 * b.size < n.toNat) →
      (m.syscallMalloc n).1 = heapStart + 32 * (before.map Obj.size).sum ∧
      (m.syscallMalloc n).1 = o.addr ∧
      (m.syscallMalloc n).2.objects = before ++ o.carve n.toNat ++ after ∧
      ((m.syscallMalloc n).2.objects.map Obj.size).sum = mallocHeapSize := by
  constructor
  · intro hnone
    have hfit : m.firstFit n.toNat = none := by
      rw [MallocMap.firstFit_eq_none]
      rintro i hi ⟨hu, hsize⟩
      have hlt : 32 * m.size i < n.toNat :=
        hnone (m.object i) (mem_objects.mpr ⟨i, hi, rfl⟩) hu
      rw [mallocBlockSize] at hsize
      omega
    rw [MallocMap.syscallMalloc_eq, hfit]
    exact ⟨rfl, rfl, rfl⟩
  · intro before o after hcut hu hsize hfirst
    obtain ⟨hi, hbefore, ho, hafter⟩ := objects_eq_append hcut
    set i := before.length with hidef
    have hu' : (m.objs i).used = false := by
      rw [ho] at hu
      exact hu
    have hsize' : n.toNat ≤ m.size i * mallocBlockSize := by
      rw [ho] at hsize
      rw [mallocBlockSize, Nat.mul_comm]
      exact hsize
    have hfit : m.firstFit n.toNat = some i := by
      refine MallocMap.firstFit_eq_some.mpr ⟨hi, ⟨hu', hsize'⟩, ?_⟩
      rintro j hj ⟨huj, hsizej⟩
      have hmem : m.object j ∈ before := by
        rw [hbefore, MallocMap.objectsFrom]
        exact List.mem_map_of_mem (List.mem_range'_1.mpr ⟨by omega, by omega⟩)
      have hlt : 32 * m.size j < n.toNat := hfirst _ hmem huj
      rw [mallocBlockSize] at hsizej
      omega
    have hptr : o.addr = heapStart + 32 * (before.map Obj.size).sum := by
      have hoff : (before.map Obj.size).sum = m.offset i := by
        rw [hbefore, m.sum_size_objectsFrom]
      rw [ho, hoff, MallocMap.object, MallocMap.addr, mallocBlockSize, Nat.mul_comm]
    have heq := objects_malloc hle hfit
    rw [← hbefore, ← hafter, ← ho, show m.addr i = o.addr by rw [ho]; rfl] at heq
    refine ⟨heq.1.trans hptr, heq.1, heq.2, ?_⟩
    have hsum' : (m.objects.map Obj.size).sum =
        (before.map Obj.size).sum + (o.size + (after.map Obj.size).sum) := by
      rw [hcut]
      simp
    rw [heq.2, ← hsum, hsum', List.map_append, List.map_append, List.sum_append, List.sum_append,
      sum_size_carve]
    omega

/-- 100 bytes from the heap of a fresh process: four blocks off its front. -/
theorem malloc_firstFit_fresh :
    ((fresh fun _ => ⟨true, 0⟩).syscallMalloc 100).1 = heapStart ∧
      ((fresh fun _ => ⟨true, 0⟩).syscallMalloc 100).2.objects =
        [⟨heapStart, 4, true⟩, ⟨heapStart + 128, 8188, false⟩] := by
  have h := (malloc_firstFit (m := fresh fun _ => ⟨true, 0⟩) (by decide)
    (tiled_fresh _).sum_size_objects 100).2 [] ⟨heapStart, 8192, false⟩ [] (by decide) rfl
    (by decide) (by simp)
  exact ⟨h.2.1, h.2.2.1⟩

/-! ## `syscall_free` -/

namespace MallocMap

/-- The first of the objects that freeing object `i` merges. -/
def low (m : MallocMap) (i : ℕ) : ℕ :=
  if 0 < i ∧ (m.objs (i - 1)).used = false then i - 1 else i

/-- The first object above those that freeing object `i` merges. -/
def high (m : MallocMap) (i : ℕ) : ℕ :=
  if i + 1 < m.mallocObjCount ∧ (m.objs (i + 1)).used = false then i + 2 else i + 1

/-- The objects of the heap once object `i` has been given back: it and its unused neighbours
become one unused object, the others stay as they are. -/
def freed (m : MallocMap) (i : ℕ) : List Obj :=
  m.objectsFrom 0 (m.low i) ++
    ⟨m.addr (m.low i), ((m.objectsFrom (m.low i) (m.high i - m.low i)).map Obj.size).sum, false⟩ ::
      m.objectsFrom (m.high i) (m.mallocObjCount - m.high i)

end MallocMap

/-- **What `syscall_free` is for.** -/
structure FreesExactly (m : MallocMap) (p : ℕ) : Prop where
  null : p = 0 → (m.syscallFree p).1 = 0 ∧ m.SameObjs (m.syscallFree p).2
  live : ∀ i < m.mallocObjCount, (m.objs i).used = true → m.addr i = p →
    (m.syscallFree p).1 = 0 ∧ (m.syscallFree p).2.objects = m.freed i
  other : p ≠ 0 → (∀ i < m.mallocObjCount, (m.objs i).used = true → m.addr i ≠ p) →
    (m.syscallFree p).1 = -1 ∧ m.SameObjs (m.syscallFree p).2

/-- What a process may assume of its own map: it fills the heap, used objects are not empty, and
unused objects are never neighbours. -/
structure WellFormed (m : MallocMap) : Prop where
  tiled : Tiled m
  used_pos : ∀ i < m.mallocObjCount, (m.objs i).used = true → 1 ≤ m.size i

/-- What the map must look like around the used object `i` for it to be given back correctly: an
unused object before it must not be empty and must have the size of the entry after it, and when it
is the last object the entry after it, which is stale, must be marked used. -/
structure MergesExactly (m : MallocMap) (i : ℕ) : Prop where
  prev : ∀ k, i = k + 1 → (m.objs k).used = false → 1 ≤ m.size k ∧ m.size (i + 1) = m.size k
  last : i + 1 = m.mallocObjCount → (m.objs (i + 1)).used = true

/-- The pointers `syscall_free` treats as it should. -/
def FreesWell (m : MallocMap) (p : ℕ) : Prop :=
  p = 0 ∨ (∀ j ≤ m.mallocObjCount, m.addr j ≠ p) ∨
    ∃ i < m.mallocObjCount, (m.objs i).used = true ∧ m.addr i = p ∧ MergesExactly m i

/-! ### The addresses of used objects -/

section addresses

variable {m : MallocMap} {p i : ℕ}

/-- The walk fails exactly when no entry, the end of the map included, has the address. -/
theorem addr_freeIndex_ne_iff :
    m.addr (m.freeIndex p) ≠ p ↔ ∀ j ≤ m.mallocObjCount, m.addr j ≠ p := by
  constructor
  · intro hne j hj haddr
    have hfi := m.freeIndex_le_of_addr p (le_of_eq haddr.symm)
    rcases Nat.eq_or_lt_of_le hj with rfl | hlt
    · rcases Nat.eq_or_lt_of_le hfi with heq | hlt'
      · exact hne (by rw [heq, haddr])
      · have hle := m.addr_mono hfi
        have hge := (m.freeWalk_spec p).2.2.2 hlt'
        exact hne (by omega)
    · exact hne (m.addr_freeIndex_of_addr p hlt haddr)
  · intro hall
    exact hall _ (m.freeIndex_le p)

/-- Two used objects have two addresses. -/
theorem WellFormed.eq_of_addr (h : WellFormed m) {j : ℕ} (hi : i < m.mallocObjCount)
    (hj : j < m.mallocObjCount) (hui : (m.objs i).used = true) (huj : (m.objs j).used = true)
    (heq : m.addr i = m.addr j) : i = j := by
  have hstep : ∀ a b, a < b → a < m.mallocObjCount → (m.objs a).used = true →
      m.addr a ≠ m.addr b := by
    intro a b hab ha hu
    have h₁ := m.addr_mono (Nat.succ_le_of_lt hab)
    have h₂ := h.used_pos a ha hu
    rw [Nat.succ_eq_add_one, MallocMap.addr_succ, mallocBlockSize] at h₁
    omega
  rcases lt_trichotomy i j with hlt | heq' | hlt
  · exact absurd heq (hstep i j hlt hi hui)
  · exact heq'
  · exact absurd heq.symm (hstep j i hlt hj huj)

/-- Where the walk stops for the address of a used object: there, or at an empty unused object right
before it. -/
theorem WellFormed.freeIndex_cases (h : WellFormed m) (hi : i < m.mallocObjCount)
    (haddr : m.addr i = p) :
    m.freeIndex p = i ∨ ∃ k, i = k + 1 ∧ m.freeIndex p = k ∧ (m.objs k).used = false ∧
      m.size k = 0 := by
  have hle := m.freeIndex_le_of_addr p (le_of_eq haddr.symm)
  have hstop := m.addr_freeIndex_of_addr p hi haddr
  set f := m.freeIndex p
  rcases Nat.eq_or_lt_of_le hle with heq | hlt
  · exact Or.inl heq
  have hempty : ∀ j, f ≤ j → j < i → m.size j = 0 := by
    intro j hfj hji
    have h₁ := m.addr_mono hfj
    have h₂ := m.addr_mono (Nat.succ_le_of_lt hji)
    rw [Nat.succ_eq_add_one, MallocMap.addr_succ, mallocBlockSize] at h₂
    omega
  have hunused : ∀ j, f ≤ j → j < i → (m.objs j).used = false := by
    intro j hfj hji
    by_contra hu
    have h₁ := h.used_pos j (by omega) (by simpa using hu)
    have h₂ := hempty j hfj hji
    omega
  have hone : i = f + 1 := by
    by_contra hne
    have hpair := h.tiled.coalesced f (by omega)
    rw [hunused f (le_refl _) hlt, hunused (f + 1) (by omega) (by omega)] at hpair
    simp at hpair
  exact Or.inr ⟨f, hone, rfl, hunused f (le_refl _) hlt, hempty f (le_refl _) hlt⟩

end addresses

/-! ### The objects after a release -/

section release

variable {m : MallocMap} {i : ℕ}

theorem target_eq_low (m : MallocMap) (i : ℕ) : m.target i = m.low i := by
  simp [MallocMap.target, MallocMap.low, MallocMap.mergesPrev]

theorem low_le (m : MallocMap) (i : ℕ) : m.low i ≤ i := by
  unfold MallocMap.low
  split <;> omega

/-- The code absorbs the objects it should, unless it looks past the last one. -/
theorem high_eq (hi : i < m.mallocObjCount)
    (hlast : i + 1 = m.mallocObjCount → (m.objs (i + 1)).used = true) :
    m.high i = m.low i + 1 + m.move i := by
  have hlow : m.low i + (m.mergesPrev i).toNat = i := by
    unfold MallocMap.low MallocMap.mergesPrev
    by_cases h0 : 0 < i
    · cases hu : (m.objs (i - 1)).used with
      | false =>
        simp only [h0, and_self, if_true, decide_true, Bool.not_false, Bool.and_self,
          Bool.toNat_true]
        omega
      | true => simp
    · simp [h0]
  have hnext : m.high i = i + 1 + (m.mergesNext i).toNat := by
    unfold MallocMap.high MallocMap.mergesNext
    by_cases hu : (m.objs (i + 1)).used = true
    · simp [hu]
    · have hlt : i + 1 < m.mallocObjCount := by
        by_contra hge
        exact hu (hlast (by omega))
      rw [Bool.not_eq_true] at hu
      simp [hu, hlt, hi]
  rw [hnext, MallocMap.move]
  omega

/-- The objects after a release that leaves the merged one in the map. -/
theorem objects_release (hlt : m.low i < m.mallocObjCount - m.move i) :
    (m.release i).objects = m.objectsFrom 0 (m.low i) ++
      ⟨m.addr (m.low i), m.emptySize i % 2 ^ 15, false⟩ ::
        (m.release i).objectsFrom (m.low i + 1) (m.mallocObjCount - m.move i - (m.low i + 1)) := by
  have ht := target_eq_low m i
  have hcount := m.release_mallocObjCount i
  have hlow : ∀ j < m.low i, (m.release i).objs j = m.objs j := fun j hj => by
    rw [MallocMap.objs_release, if_neg (by omega), if_neg (by omega)]
  have hmid : (m.release i).objectsFrom (m.low i) 1 =
      [⟨m.addr (m.low i), m.emptySize i % 2 ^ 15, false⟩] := by
    have hsize := size_release_target (m := m) (i := i)
    rw [ht] at hsize
    have hobj : ((m.release i).objs (m.low i)).used = false := by
      rw [MallocMap.objs_release, if_pos ht.symm]
    rw [MallocMap.objectsFrom_succ, MallocMap.object, hsize, hobj, MallocMap.addr_congr hlow]
    rfl
  rw [MallocMap.objects_cut _ (i := m.low i) (j := m.low i + 1) (by omega) (by omega), hcount,
    show m.low i + 1 - m.low i = 1 by omega, hmid, MallocMap.objectsFrom_zero_congr hlow,
    List.append_assoc]
  rfl

/-- The merged object is as large as the objects merged, and the others are where they were, exactly
when the size the code computes is right. -/
theorem objects_release_eq_freed_iff_size (hi : i < m.mallocObjCount)
    (hlast : i + 1 = m.mallocObjCount → (m.objs (i + 1)).used = true)
    (hlt : m.low i < m.mallocObjCount - m.move i) :
    (m.release i).objects = m.freed i ↔
      m.offset (m.low i) + m.emptySize i % 2 ^ 15 = m.offset (m.low i + 1 + m.move i) := by
  have ht := target_eq_low m i
  have hhigh := high_eq hi hlast
  have hsum := m.offset_add_sum_size (m.low i) (m.high i - m.low i)
  rw [show m.low i + (m.high i - m.low i) = m.high i by omega, hhigh] at hsum
  rw [objects_release hlt, MallocMap.freed, List.append_cancel_left_eq, List.cons.injEq]
  constructor
  · rintro ⟨hobj, -⟩
    have hsize := congrArg Obj.size hobj
    simp only at hsize
    rw [hhigh] at hsize
    omega
  · intro hsize
    refine ⟨?_, ?_⟩
    · rw [hhigh]
      congr 1
      omega
    · rw [hhigh, show m.mallocObjCount - m.move i - (m.low i + 1) =
        m.mallocObjCount - (m.low i + 1 + m.move i) by omega]
      refine MallocMap.objectsFrom_congr (fun j hj => ?_) ?_
      · rw [MallocMap.objs_release, if_neg (by omega), if_pos (by omega),
          show m.low i + 1 + j + m.move i = m.low i + 1 + m.move i + j by omega]
      · have h := size_release_target (m := m) (i := i)
        have h' := offset_release_of_le (m := m) (i := i) (le_refl _)
        rw [ht] at h h'
        rw [MallocMap.offset_succ, h, h', hsize]

/-- A last object with an unused stale entry after it is dropped from the map. -/
theorem objects_release_ne_freed (hlast : i + 1 = m.mallocObjCount)
    (hstale : (m.objs (i + 1)).used = false) : (m.release i).objects ≠ m.freed i := by
  intro h
  have hlen := congrArg List.length h
  have hhigh : m.high i = i + 1 := by
    rw [MallocMap.high, if_neg (by omega)]
  have hlow := low_le m i
  simp only [MallocMap.objects, MallocMap.freed, MallocMap.length_objectsFrom, List.length_append,
    List.length_cons, MallocMap.release_mallocObjCount, hhigh] at hlen
  have hmove : m.move i = 1 + (i - m.low i) := by
    have hnext : m.mergesNext i = true := by
      simp only [MallocMap.mergesNext, hstale, Bool.not_false, Bool.and_true, decide_eq_true_eq]
      omega
    rw [MallocMap.move, hnext, ← target_eq_low, MallocMap.target]
    cases hp : m.mergesPrev i with
    | false => simp
    | true =>
      have hi0 : 0 < i := by
        simp only [MallocMap.mergesPrev, Bool.and_eq_true, decide_eq_true_eq] at hp
        exact hp.1
      simp only [if_true, Bool.toNat_true]
      omega
  omega

/-- **When a release gives back what it should.** -/
theorem objects_release_eq_freed_iff (h : WellFormed m) (hi : i < m.mallocObjCount)
    (hpos : ∀ k, i = k + 1 → 0 < m.size k) :
    (m.release i).objects = m.freed i ↔ MergesExactly m i := by
  by_cases hlast : i + 1 = m.mallocObjCount → (m.objs (i + 1)).used = true
  · have hhigh := high_eq hi hlast
    have hle : m.high i ≤ m.mallocObjCount := by
      unfold MallocMap.high
      split <;> omega
    have hlt : m.low i < m.mallocObjCount - m.move i := by omega
    have htiled := tiled_release_iff_of_lt h.tiled hi.le (by rw [target_eq_low]; exact hlt)
    rw [target_eq_low] at htiled
    rw [objects_release_eq_freed_iff_size hi hlast hlt, ← htiled,
      tiled_release_iff h.tiled hi.le hpos]
    constructor
    · intro hfits
      exact ⟨fun k hk hu => ⟨hpos k hk, hfits.prev_size hi k hk hu⟩, hlast⟩
    · intro hexact
      refine ⟨fun h' => by omega, fun _ k hk hu => (hexact.prev k hk hu).2, fun h' hu => ?_⟩
      rw [hlast h'] at hu
      exact absurd hu (by simp)
  · rw [Classical.not_imp, Bool.not_eq_true] at hlast
    refine iff_of_false (objects_release_ne_freed hlast.1 hlast.2) fun hexact => ?_
    have hused := hexact.last hlast.1
    rw [hlast.2] at hused
    exact absurd hused (by simp)

/-- Releasing the empty unused object before object `i` changes nothing, and object `i` stays. -/
theorem objects_release_empty_ne_freed (h : WellFormed m) {k : ℕ} (hk : k + 1 < m.mallocObjCount)
    (hu : (m.objs k).used = false) (hnext : (m.objs (k + 1)).used = true) :
    (m.release k).objects ≠ m.freed (k + 1) := by
  intro heq
  have hlen := congrArg List.length heq
  have hlow : m.low (k + 1) = k := by
    rw [MallocMap.low, if_pos ⟨by omega, hu⟩]
    rfl
  have hhigh : m.high (k + 1) = k + 2 ∨ m.high (k + 1) = k + 3 := by
    unfold MallocMap.high
    split <;> omega
  have hmove : m.move k = 0 := by
    rcases m.merge_cases k with ⟨-, -, hm, -⟩ | ⟨-, hu', -⟩ | ⟨-, ⟨j, rfl, hj, -⟩, -⟩ |
      ⟨-, hu', -⟩
    · exact hm
    · rw [hnext] at hu'
      exact absurd hu' (by simp)
    · have hpair := h.tiled.coalesced j (by omega)
      rw [hj, hu] at hpair
      simp at hpair
    · rw [hnext] at hu'
      exact absurd hu' (by simp)
  simp only [MallocMap.objects, MallocMap.freed, MallocMap.length_objectsFrom, List.length_append,
    List.length_cons, MallocMap.release_mallocObjCount, hlow, hmove] at hlen
  omega

end release

/-! ### Exact release -/

@[simp] theorem MallocMap.scanned_freed (m : MallocMap) (a k : ℕ) :
    (m.scanned a k).freed = m.freed := by
  funext i
  simp only [MallocMap.freed, MallocMap.scanned_objectsFrom, MallocMap.scanned_addr]
  rfl

theorem wellFormed_scanned {m : MallocMap} (h : WellFormed m) (a k : ℕ) :
    WellFormed (m.scanned a k) :=
  ⟨(tiled_scanned m a k).mpr h.tiled, h.used_pos⟩

/-- The address of the used object `i`: what the call does, and when it is right. -/
theorem free_live_iff {m : MallocMap} (h : WellFormed m) {p i : ℕ} (hp : p ≠ 0)
    (hi : i < m.mallocObjCount) (hu : (m.objs i).used = true) (haddr : m.addr i = p) :
    (m.syscallFree p).1 = 0 ∧
      ((m.syscallFree p).2.objects = m.freed i ↔ MergesExactly m i) := by
  have hstop := m.addr_freeIndex_of_addr p hi haddr
  rw [MallocMap.syscallFree_eq, if_neg hp, if_neg (not_not.mpr hstop)]
  refine ⟨rfl, ?_⟩
  have hm := wellFormed_scanned h 0 (m.freeIndex p)
  rcases h.freeIndex_cases hi haddr with hf | ⟨k, rfl, hf, huk, hzero⟩
  · have hrel := objects_release_eq_freed_iff (i := i) hm hi fun k hk =>
      m.size_pos_of_freeIndex p (by rw [hf, hk]) hstop
    rw [MallocMap.scanned_freed] at hrel
    rw [show MergesExactly m i ↔ MergesExactly (m.scanned 0 (m.freeIndex p)) i from
      ⟨fun h' => ⟨h'.prev, h'.last⟩, fun h' => ⟨h'.prev, h'.last⟩⟩, ← hrel, hf]
  · have hne := objects_release_empty_ne_freed hm hi huk hu
    rw [MallocMap.scanned_freed, hf] at hne
    rw [hf]
    refine iff_of_false hne fun hexact => ?_
    have := (hexact.prev k rfl huk).1
    omega

/-- **When `syscall_free` releases exactly its argument.**  It does so for `NULL`, for a pointer
that is no entry's address and not the end of the heap, and for a used object that merges exactly;
for every other pointer it does not. -/
theorem free_exact_iff {m : MallocMap} (h : WellFormed m) (p : ℕ) :
    FreesExactly m p ↔ FreesWell m p := by
  rcases Nat.eq_zero_or_pos p with rfl | hpos
  · have hne : ∀ i, m.addr i ≠ 0 := fun i => by
      rw [MallocMap.addr, heapStart]
      omega
    exact iff_of_true ⟨fun _ => ⟨rfl, rfl, rfl⟩, fun i _ _ haddr => absurd haddr (hne i),
      fun h' => absurd rfl h'⟩ (Or.inl rfl)
  have hp : p ≠ 0 := by omega
  by_cases hnone : ∀ j ≤ m.mallocObjCount, m.addr j ≠ p
  · have hfree : m.syscallFree p = (-1, m.scanned 0 (m.freeIndex p)) := by
      rw [MallocMap.syscallFree_eq, if_neg hp, if_pos (addr_freeIndex_ne_iff.mpr hnone)]
    refine iff_of_true ⟨fun h' => absurd h' hp, fun i hi _ haddr => absurd haddr (hnone i hi.le),
      fun _ _ => ?_⟩ (Or.inr (Or.inl hnone))
    rw [hfree]
    exact ⟨rfl, rfl, rfl⟩
  by_cases hlive : ∃ i < m.mallocObjCount, (m.objs i).used = true ∧ m.addr i = p
  · obtain ⟨i, hi, hu, haddr⟩ := hlive
    obtain ⟨hret, hobjects⟩ := free_live_iff h hp hi hu haddr
    have honly : ∀ j < m.mallocObjCount, (m.objs j).used = true → m.addr j = p → j = i :=
      fun j hj huj haddrj => h.eq_of_addr hj hi huj hu (haddrj.trans haddr.symm)
    constructor
    · intro hexact
      exact Or.inr (Or.inr ⟨i, hi, hu, haddr, hobjects.mp (hexact.live i hi hu haddr).2⟩)
    · rintro (h0 | hall | ⟨j, hj, huj, haddrj, hmerges⟩)
      · exact absurd h0 hp
      · exact absurd hall hnone
      · obtain rfl := honly j hj huj haddrj
        refine ⟨fun h' => absurd h' hp, fun k hk huk haddrk => ?_,
          fun _ hother => absurd haddr (hother j hi hu)⟩
        obtain rfl := honly k hk huk haddrk
        exact ⟨hret, hobjects.mpr hmerges⟩
  · have hother : ∀ i < m.mallocObjCount, (m.objs i).used = true → m.addr i ≠ p :=
      fun i hi hu haddr => hlive ⟨i, hi, hu, haddr⟩
    refine iff_of_false (fun hexact => ?_) ?_
    · have hret := (hexact.other hp hother).1
      have hstop : m.addr (m.freeIndex p) = p := by
        by_contra hne
        exact hnone (addr_freeIndex_ne_iff.mp hne)
      rw [MallocMap.syscallFree_eq, if_neg hp, if_neg (not_not.mpr hstop)] at hret
      exact absurd (show (0 : ℤ) = -1 from hret) (by decide)
    · rintro (h0 | hall | ⟨j, hj, huj, haddrj, -⟩)
      · exact hp h0
      · exact hnone hall
      · exact hother j hj huj haddrj

theorem wellFormed_malloc : WellFormed (exec (fresh fun _ => ⟨true, 0⟩) (.malloc 0)) := by
  refine ⟨tiled_syscallMalloc (tiled_fresh _) 0, ?_⟩
  decide

/-- The first object of a process, given back. -/
theorem free_exact_malloc :
    FreesExactly (exec (fresh fun _ => ⟨true, 0⟩) (.malloc 0)) heapStart := by
  refine (free_exact_iff wellFormed_malloc heapStart).mpr (Or.inr (Or.inr ⟨0, ?_, ?_, ?_, ?_⟩))
  · decide
  · decide
  · decide
  · exact ⟨fun k hk => absurd hk (by omega), fun hlast => absurd hlast (by decide)⟩

/-- The heap after two objects of one block have been allocated and the first one given back. -/
def holed : MallocMap :=
  exec (exec (exec (fresh fun _ => ⟨true, 0⟩) (.malloc 0)) (.malloc 0)) (.free heapStart)

theorem wellFormed_holed : WellFormed holed := by
  have hcount : holed.mallocObjCount = 3 := by decide
  refine ⟨⟨by rw [hcount]; omega, by rw [hcount, mallocObjNum]; omega, by decide, fun i hi => ?_⟩,
    by decide⟩
  have h01 : i = 0 ∨ i = 1 := by omega
  rcases h01 with rfl | rfl
  · exact Or.inr (by decide)
  · exact Or.inl (by decide)

/-- **The failing release.**  Giving back the second object, whose neighbours are both unused, makes
one object of 16381 blocks out of a heap of 8192. -/
theorem not_free_exact :
    ¬ ∀ m : MallocMap, WellFormed m → m.mallocObjCount ≤ 2047 → ∀ p, FreesExactly m p := by
  intro h
  have hfree := (h holed wellFormed_holed (by decide) (heapStart + 32)).live 1 (by decide)
    (by decide) (by decide)
  exact absurd hfree.2 (by decide)

end Heap
end CoreOS
