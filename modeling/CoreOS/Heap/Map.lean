import CoreOS.Heap.Malloc
import CoreOS.Lib.Segments

/-!
# What the two calls do to the map

The loops of `syscall_malloc` and `syscall_free`, each described once.

* `syscallMalloc_eq`: the call returns at the first unused object that is large enough, and either
  splits it or takes it whole.
* `syscallFree_eq`: the call stops at the first entry whose address is not below the pointer, and
  releases that entry when the address is the pointer itself.
* `objs_split`, `objs_release`: the map after the two shifting loops, entry by entry.

Everything later reads these equations; the loops are not opened again.
-/

namespace CoreOS
namespace Heap
namespace MallocMap

/-! ## Addresses -/

/-- The number of blocks before entry `i`. -/
def offset (m : MallocMap) : ℕ → ℕ
  | 0 => 0
  | i + 1 => m.offset i + m.size i

/-- The address of entry `i`. -/
def addr (m : MallocMap) (i : ℕ) : ℕ := heapStart + m.offset i * mallocBlockSize

@[simp] theorem offset_zero (m : MallocMap) : m.offset 0 = 0 := rfl

@[simp] theorem offset_succ (m : MallocMap) (i : ℕ) : m.offset (i + 1) = m.offset i + m.size i :=
  rfl

theorem addr_zero (m : MallocMap) : m.addr 0 = heapStart := by
  simp [addr]

theorem addr_succ (m : MallocMap) (i : ℕ) :
    m.addr (i + 1) = m.addr i + m.size i * mallocBlockSize := by
  rw [addr, addr, offset_succ, Nat.add_mul, Nat.add_assoc]

theorem offset_mono (m : MallocMap) {i j : ℕ} (h : i ≤ j) : m.offset i ≤ m.offset j := by
  induction j, h using Nat.le_induction with
  | base => exact le_refl _
  | succ j _ ih => exact le_trans ih (Nat.le_add_right _ _)

theorem addr_mono (m : MallocMap) {i j : ℕ} (h : i ≤ j) : m.addr i ≤ m.addr j :=
  Nat.add_le_add_left (Nat.mul_le_mul_right _ (m.offset_mono h)) _

theorem offset_congr {m m' : MallocMap} {i : ℕ} (h : ∀ j < i, m'.objs j = m.objs j) :
    m'.offset i = m.offset i := by
  induction i with
  | zero => rfl
  | succ i ih =>
    rw [offset_succ, offset_succ, ih fun j hj => h j (by omega), size, size, h i (by omega)]

theorem addr_congr {m m' : MallocMap} {i : ℕ} (h : ∀ j < i, m'.objs j = m.objs j) :
    m'.addr i = m.addr i := by
  rw [addr, addr, offset_congr h]

/-! ## The trace of a walk -/

/-- The map after `k` entries have been read, from entry `i` on. -/
def scanned (m : MallocMap) (i k : ℕ) : MallocMap :=
  { m with touched := (List.range' i k).reverse ++ m.touched }

section scanned

variable (m : MallocMap) (i k : ℕ)

@[simp] theorem scanned_objs : (m.scanned i k).objs = m.objs := rfl
@[simp] theorem scanned_mallocObjCount : (m.scanned i k).mallocObjCount = m.mallocObjCount := rfl
@[simp] theorem scanned_size : (m.scanned i k).size = m.size := rfl
@[simp] theorem scanned_addr : (m.scanned i k).addr = m.addr :=
  funext fun _ => addr_congr fun _ _ => rfl
@[simp] theorem scanned_mergesNext : (m.scanned i k).mergesNext = m.mergesNext := rfl
@[simp] theorem scanned_mergesPrev : (m.scanned i k).mergesPrev = m.mergesPrev := rfl
@[simp] theorem scanned_move : (m.scanned i k).move = m.move := rfl
@[simp] theorem scanned_target : (m.scanned i k).target = m.target := rfl
@[simp] theorem scanned_emptySize : (m.scanned i k).emptySize = m.emptySize := rfl
@[simp] theorem scanned_mergeReads : (m.scanned i k).mergeReads = m.mergeReads := rfl

theorem scanned_zero : m.scanned i 0 = m := by simp [scanned]

theorem touch_scanned : (m.touch i).scanned (i + 1) k = m.scanned i (k + 1) := by
  simp [scanned, touch, List.range'_succ]

theorem mem_scanned_touched {t : ℕ} :
    t ∈ (m.scanned i k).touched ↔ (i ≤ t ∧ t < i + k) ∨ t ∈ m.touched := by
  simp [scanned, List.mem_range'_1]

end scanned

@[simp] theorem touch_objs (m : MallocMap) (i : ℕ) : (m.touch i).objs = m.objs := rfl

@[simp] theorem touch_size (m : MallocMap) (i : ℕ) : (m.touch i).size = m.size := rfl

@[simp] theorem touch_mallocObjCount (m : MallocMap) (i : ℕ) :
    (m.touch i).mallocObjCount = m.mallocObjCount := rfl

@[simp] theorem touch_addr (m : MallocMap) (i : ℕ) : (m.touch i).addr = m.addr :=
  funext fun _ => addr_congr fun _ _ => rfl

/-! ## The probing loop -/

/-- Entry `i` is unused and holds `size` bytes. -/
def Fits (m : MallocMap) (size i : ℕ) : Prop :=
  (m.objs i).used = false ∧ size ≤ m.size i * mallocBlockSize

instance (m : MallocMap) (size i : ℕ) : Decidable (m.Fits size i) :=
  inferInstanceAs (Decidable (_ ∧ _))

/-- The entry `syscall_malloc` settles on: the first one that is unused and large enough. -/
def firstFit (m : MallocMap) (size : ℕ) : Option ℕ :=
  (List.range m.mallocObjCount).find? fun i => decide (m.Fits size i)

/-- What `syscall_malloc` does once it has settled on entry `i`. -/
def take (m : MallocMap) (size i : ℕ) : ℕ × MallocMap :=
  if size < m.size i * mallocBlockSize then
    if m.mallocObjCount = mallocObjNum then (0, m) else (m.addr i, m.split i size)
  else (m.addr i, m.setObj i { m.objs i with used := true })

theorem take_scanned (m : MallocMap) (a k size i : ℕ) :
    (m.scanned a k).take size i =
      if size < m.size i * mallocBlockSize then
        if m.mallocObjCount = mallocObjNum then (0, m.scanned a k)
        else (m.addr i, (m.scanned a k).split i size)
      else (m.addr i, (m.scanned a k).setObj i { m.objs i with used := true }) := by
  rw [take, scanned_addr]
  rfl

/-- One round of the probing loop. -/
theorem mallocProbe_succ (size k i p : ℕ) (m : MallocMap) :
    mallocProbe size (k + 1) i p m =
      if (m.objs i).used then
        mallocProbe size k (i + 1) (p + m.size i * mallocBlockSize) (m.touch i)
      else if size < m.size i * mallocBlockSize then
        if m.mallocObjCount = mallocObjNum then (0, m.touch i)
        else (p, (m.touch i).split i size)
      else if m.size i * mallocBlockSize < size then
        mallocProbe size k (i + 1) (p + m.size i * mallocBlockSize) (m.touch i)
      else (p, (m.touch i).setObj i { m.objs i with used := true }) := rfl

theorem mallocProbe_of_not_fits {size k i p : ℕ} {m : MallocMap}
    (h : ∀ j, i ≤ j → j < i + k → ¬ m.Fits size j) :
    mallocProbe size k i p m = (0, m.scanned i k) := by
  induction k generalizing i p m with
  | zero => rw [mallocProbe, scanned_zero]
  | succ k ih =>
    have hi : ¬ m.Fits size i := h i (le_refl _) (by omega)
    have hrest := ih (i := i + 1) (p := p + m.size i * mallocBlockSize) (m := m.touch i)
      (fun j hj hjk => h j (by omega) (by omega))
    rw [touch_scanned] at hrest
    rw [mallocProbe_succ]
    by_cases hu : (m.objs i).used = true
    · rw [if_pos hu]
      exact hrest
    · have hlt : m.size i * mallocBlockSize < size := by
        by_contra hge
        exact hi ⟨by simpa using hu, by omega⟩
      rw [if_neg hu, if_neg (by omega), if_pos hlt]
      exact hrest

theorem mallocProbe_of_fits {size k i j : ℕ} {m : MallocMap} (hij : i ≤ j) (hjk : j < i + k)
    (hj : m.Fits size j) (hfirst : ∀ t, i ≤ t → t < j → ¬ m.Fits size t) :
    mallocProbe size k i (m.addr i) m = (m.scanned i (j + 1 - i)).take size j := by
  induction k generalizing i m with
  | zero => omega
  | succ k ih =>
    rcases Nat.eq_or_lt_of_le hij with rfl | hlt
    · -- the loop stops here
      have hone : m.scanned i (i + 1 - i) = m.touch i := by
        simp [scanned, touch]
      have hle := hj.2
      rw [mallocProbe_succ, take_scanned, hone, if_neg (by simp [hj.1])]
      by_cases hlt : size < m.size i * mallocBlockSize
      · rw [if_pos hlt, if_pos hlt]
      · rw [if_neg hlt, if_neg hlt, if_neg (by omega)]
    · -- entry `i` does not fit, so the loop goes on
      have hi : ¬ m.Fits size i := hfirst i (le_refl _) hlt
      have hrest := ih (i := i + 1) (m := m.touch i) hlt (by omega) hj
        (fun t ht htj => hfirst t (by omega) htj)
      rw [touch_scanned, touch_addr, addr_succ, show j + 1 - (i + 1) + 1 = j + 1 - i by omega] at hrest
      rw [mallocProbe_succ]
      by_cases hu : (m.objs i).used = true
      · rw [if_pos hu]
        exact hrest
      · have hlt' : m.size i * mallocBlockSize < size := by
          by_contra hge
          exact hi ⟨by simpa using hu, by omega⟩
        rw [if_neg hu, if_neg (by omega), if_pos hlt']
        exact hrest

theorem firstFit_eq_none {m : MallocMap} {size : ℕ} :
    m.firstFit size = none ↔ ∀ i < m.mallocObjCount, ¬ m.Fits size i := by
  simp [firstFit]

theorem firstFit_eq_some {m : MallocMap} {size i : ℕ} :
    m.firstFit size = some i ↔
      i < m.mallocObjCount ∧ m.Fits size i ∧ ∀ j < i, ¬ m.Fits size j := by
  rw [firstFit, List.find?_range_eq_some]
  simp only [decide_eq_true_eq, List.mem_range, Bool.not_eq_true', decide_eq_false_iff_not]
  tauto

/-- **First fit.**  `syscall_malloc` takes the first entry that fits, and returns `NULL` without
touching an object when there is none. -/
theorem syscallMalloc_eq (m : MallocMap) (size : BitVec 32) :
    m.syscallMalloc size = match m.firstFit size.toNat with
      | none => (0, m.scanned 0 m.mallocObjCount)
      | some i => (m.scanned 0 (i + 1)).take size.toNat i := by
  cases hfit : m.firstFit size.toNat with
  | none =>
    rw [firstFit_eq_none] at hfit
    exact mallocProbe_of_not_fits fun j _ hj => hfit j (by omega)
  | some i =>
    obtain ⟨hi, hfits, hfirst⟩ := firstFit_eq_some.mp hfit
    have := mallocProbe_of_fits (k := m.mallocObjCount) (Nat.zero_le i) (by omega) hfits
      (fun t _ ht => hfirst t ht)
    rw [addr_zero] at this
    exact this

/-! ## The walk of `syscall_free` -/

/-- The entry the walk of `syscall_free` stops at. -/
def freeIndex (m : MallocMap) (ptr : ℕ) : ℕ := (freeWalk ptr m.mallocObjCount 0 heapStart m).1

theorem freeWalk_eq (ptr k i : ℕ) (m : MallocMap) :
    ∃ j, freeWalk ptr k i (m.addr i) m = (j, m.addr j, m.scanned i (j - i)) ∧ i ≤ j ∧ j ≤ i + k ∧
      (∀ t, i ≤ t → t < j → m.addr t < ptr) ∧ (j < i + k → ptr ≤ m.addr j) := by
  induction k generalizing i m with
  | zero =>
    refine ⟨i, ?_, le_refl _, le_refl _, fun t h₁ h₂ => by omega, fun h => by omega⟩
    rw [freeWalk, Nat.sub_self, scanned_zero]
  | succ k ih =>
    by_cases hlt : m.addr i < ptr
    · obtain ⟨j, hj, hij, hjk, hbelow, hstop⟩ := ih (i + 1) (m.touch i)
      rw [touch_addr, touch_scanned, addr_succ, show j - (i + 1) + 1 = j - i by omega] at hj
      rw [touch_addr] at hbelow hstop
      refine ⟨j, ?_, by omega, by omega, fun t h₁ h₂ => ?_, fun h => hstop (by omega)⟩
      · rw [freeWalk, if_pos hlt, hj]
      · rcases Nat.eq_or_lt_of_le h₁ with rfl | h₁
        · exact hlt
        · exact hbelow t h₁ h₂
    · refine ⟨i, ?_, le_refl _, by omega, fun t h₁ h₂ => by omega, fun _ => by omega⟩
      rw [freeWalk, if_neg hlt, Nat.sub_self, scanned_zero]

section freeIndex

variable (m : MallocMap) (ptr : ℕ)

theorem freeWalk_spec :
    freeWalk ptr m.mallocObjCount 0 heapStart m =
        (m.freeIndex ptr, m.addr (m.freeIndex ptr), m.scanned 0 (m.freeIndex ptr)) ∧
      m.freeIndex ptr ≤ m.mallocObjCount ∧
      (∀ t < m.freeIndex ptr, m.addr t < ptr) ∧
      (m.freeIndex ptr < m.mallocObjCount → ptr ≤ m.addr (m.freeIndex ptr)) := by
  obtain ⟨j, hj, -, hle, hbelow, hstop⟩ := freeWalk_eq ptr m.mallocObjCount 0 m
  rw [addr_zero] at hj
  have hi : m.freeIndex ptr = j := by rw [freeIndex, hj]
  rw [hi]
  refine ⟨by simpa using hj, by omega, fun t ht => hbelow t (Nat.zero_le _) ht, fun h => ?_⟩
  exact hstop (by omega)

theorem freeIndex_le : m.freeIndex ptr ≤ m.mallocObjCount := (m.freeWalk_spec ptr).2.1

theorem addr_lt_of_lt_freeIndex {t : ℕ} (h : t < m.freeIndex ptr) : m.addr t < ptr :=
  (m.freeWalk_spec ptr).2.2.1 t h

/-- The first entry with the address of entry `i` is where the walk for that address stops. -/
theorem freeIndex_le_of_addr {i : ℕ} (h : ptr ≤ m.addr i) : m.freeIndex ptr ≤ i := by
  by_contra hlt
  exact absurd (m.addr_lt_of_lt_freeIndex ptr (Nat.lt_of_not_le hlt)) (by omega)

theorem addr_freeIndex_of_addr {i : ℕ} (hi : i < m.mallocObjCount) (h : m.addr i = ptr) :
    m.addr (m.freeIndex ptr) = ptr := by
  have hle := m.freeIndex_le_of_addr ptr (le_of_eq h.symm)
  refine le_antisymm ?_ ((m.freeWalk_spec ptr).2.2.2 (by omega))
  rw [← h]
  exact m.addr_mono (by rw [h]; exact hle)

/-- The object before the one the walk stops at is not empty. -/
theorem size_pos_of_freeIndex {i : ℕ} (hi : m.freeIndex ptr = i + 1)
    (h : m.addr (m.freeIndex ptr) = ptr) : 0 < m.size i := by
  have hlt := m.addr_lt_of_lt_freeIndex ptr (t := i) (by omega)
  rw [hi, addr_succ] at h
  by_contra hz
  rw [Nat.eq_zero_of_not_pos hz] at h
  omega

theorem syscallFree_eq :
    m.syscallFree ptr = if ptr = 0 then (0, m)
      else if m.addr (m.freeIndex ptr) ≠ ptr then (-1, m.scanned 0 (m.freeIndex ptr))
      else (0, (m.scanned 0 (m.freeIndex ptr)).release (m.freeIndex ptr)) := by
  simp only [syscallFree, (m.freeWalk_spec ptr).1]

end freeIndex

/-! ## The two shifting loops -/

@[simp] theorem setObj_mallocObjCount (m : MallocMap) (i : ℕ) (o : MallocObj) :
    (m.setObj i o).mallocObjCount = m.mallocObjCount := rfl

@[simp] theorem setObj_objs (m : MallocMap) (i : ℕ) (o : MallocObj) :
    (m.setObj i o).objs = Function.update m.objs i o := rfl

theorem objs_setObj_self (m : MallocMap) (i : ℕ) (o : MallocObj) : (m.setObj i o).objs i = o :=
  Function.update_self ..

theorem objs_setObj_of_ne (m : MallocMap) {i j : ℕ} (hj : j ≠ i) (o : MallocObj) :
    (m.setObj i o).objs j = m.objs j :=
  Function.update_of_ne hj ..

theorem mem_setObj_touched {m : MallocMap} {i t : ℕ} {o : MallocObj} :
    t ∈ (m.setObj i o).touched ↔ t = i ∨ t ∈ m.touched := by
  simp [setObj]

@[simp] theorem shiftRight_mallocObjCount (i k : ℕ) (m : MallocMap) :
    (shiftRight i k m).mallocObjCount = m.mallocObjCount := by
  induction k generalizing m with
  | zero => rfl
  | succ k ih => rw [shiftRight, ih]; rfl

theorem shiftRight_objs (i k : ℕ) (m : MallocMap) (t : ℕ) :
    (shiftRight i k m).objs t = if i < t ∧ t ≤ i + k then m.objs (t - 1) else m.objs t := by
  induction k generalizing m with
  | zero =>
    rw [shiftRight, if_neg (by omega)]
  | succ k ih =>
    rw [shiftRight, ih]
    simp only [copyObj, setObj_objs, touch_objs, Function.update_apply]
    by_cases h' : i < t ∧ t ≤ i + k
    · rw [if_pos h', if_neg (by omega), if_pos (by omega)]
    · rw [if_neg h']
      by_cases h : t = i + k + 1
      · rw [if_pos h, if_pos (by omega), h, Nat.add_sub_cancel]
      · rw [if_neg h, if_neg (by omega)]

theorem mem_shiftRight_touched {i k t : ℕ} {m : MallocMap} :
    t ∈ (shiftRight i k m).touched ↔ (0 < k ∧ i ≤ t ∧ t ≤ i + k) ∨ t ∈ m.touched := by
  induction k generalizing m with
  | zero => simp [shiftRight]
  | succ k ih =>
    rw [shiftRight, ih, copyObj, mem_setObj_touched]
    simp only [touch, List.mem_cons]
    grind

@[simp] theorem shiftLeft_mallocObjCount (move k j : ℕ) (m : MallocMap) :
    (shiftLeft move k j m).mallocObjCount = m.mallocObjCount := by
  induction k generalizing m j with
  | zero => rfl
  | succ k ih => rw [shiftLeft, ih]; rfl

theorem shiftLeft_objs (move k j : ℕ) (m : MallocMap) (t : ℕ) :
    (shiftLeft move k j m).objs t =
      if j ≤ t ∧ t < j + k then m.objs (t + move) else m.objs t := by
  induction k generalizing m j with
  | zero =>
    rw [shiftLeft, if_neg (by omega)]
  | succ k ih =>
    rw [shiftLeft, ih]
    simp only [copyObj, setObj_objs, touch_objs, Function.update_apply]
    by_cases h : t = j
    · subst h
      rw [if_neg (by omega), if_pos rfl, if_pos (by omega)]
    · rw [if_neg h]
      by_cases h' : j + 1 ≤ t ∧ t < j + 1 + k
      · rw [if_pos h', if_neg (by omega), if_pos (by omega)]
      · rw [if_neg h', if_neg (by omega)]

theorem mem_shiftLeft_touched {move k j t : ℕ} {m : MallocMap} :
    t ∈ (shiftLeft move k j m).touched ↔
      (j ≤ t ∧ t < j + k) ∨ (j + move ≤ t ∧ t < j + move + k) ∨ t ∈ m.touched := by
  induction k generalizing m j with
  | zero =>
    unfold shiftLeft
    constructor
    · exact fun h => Or.inr (Or.inr h)
    · rintro (h | h | h)
      · omega
      · omega
      · exact h
  | succ k ih =>
    rw [shiftLeft, ih, copyObj, mem_setObj_touched]
    simp only [touch, List.mem_cons]
    constructor
    · rintro (h | h | h | h | h)
      · exact Or.inl (by omega)
      · exact Or.inr (Or.inl (by omega))
      · exact Or.inl (by omega)
      · exact Or.inr (Or.inl (by omega))
      · exact Or.inr (Or.inr h)
    · rintro (h | h | h)
      · by_cases hj : t = j
        · exact Or.inr (Or.inr (Or.inl hj))
        · exact Or.inl (by omega)
      · by_cases hj : t = j + move
        · exact Or.inr (Or.inr (Or.inr (Or.inl hj)))
        · exact Or.inr (Or.inl (by omega))
      · exact Or.inr (Or.inr (Or.inr (Or.inr h)))

/-! ## The map after a split, and after a release -/

@[simp] theorem split_mallocObjCount (m : MallocMap) (i size : ℕ) :
    (m.split i size).mallocObjCount = m.mallocObjCount + 1 := by
  simp [split]

/-- The map after a split, entry by entry.  Everything from `i` on, the stale entry at
`malloc_obj_count` included, moves up by one. -/
theorem objs_split {m : MallocMap} {i size : ℕ} (hi : i ≤ m.mallocObjCount) (t : ℕ) :
    (m.split i size).objs t =
      if t < i then m.objs t
      else if t = i then ⟨true, BitVec.ofNat 15 (size / 32 + 1)⟩
      else if t = i + 1 then
        ⟨(m.objs i).used,
          BitVec.ofNat 15 (m.size i - (BitVec.ofNat 15 (size / 32 + 1)).toNat)⟩
      else if t ≤ m.mallocObjCount + 1 then m.objs (t - 1)
      else m.objs t := by
  simp only [split, setObj_objs, Function.update_apply, shiftRight_objs, MallocMap.size, if_true,
    if_neg (show ¬ i + 1 = i by omega), Nat.add_sub_cancel,
    if_pos (show i < i + 1 ∧ i + 1 ≤ i + (m.mallocObjCount + 1 - i) by omega)]
  rcases lt_trichotomy t i with h | h | h
  · rw [if_neg (by omega), if_neg (by omega), if_neg (by omega), if_pos h]
  · rw [if_neg (by omega), if_pos h, if_neg (by omega), if_pos h]
  · rw [if_neg (by omega : ¬ t = i), if_neg (by omega : ¬ t < i), if_neg (by omega : ¬ t = i)]
    by_cases h₁ : t = i + 1
    · rw [if_pos h₁, if_pos h₁]
    · rw [if_neg h₁, if_neg h₁]
      by_cases h₂ : t ≤ m.mallocObjCount + 1
      · rw [if_pos (by omega), if_pos h₂]
      · rw [if_neg (by omega), if_neg h₂]

theorem objs_split_of_lt {m : MallocMap} {i size t : ℕ} (hi : i ≤ m.mallocObjCount) (ht : t < i) :
    (m.split i size).objs t = m.objs t := by
  rw [objs_split hi, if_pos ht]

theorem used_split_self {m : MallocMap} {i size : ℕ} (hi : i ≤ m.mallocObjCount) :
    ((m.split i size).objs i).used = true := by
  rw [objs_split hi, if_neg (Nat.lt_irrefl i), if_pos rfl]

theorem used_split_succ {m : MallocMap} {i size : ℕ} (hi : i ≤ m.mallocObjCount) :
    ((m.split i size).objs (i + 1)).used = (m.objs i).used := by
  rw [objs_split hi, if_neg (by omega), if_neg (by omega), if_pos rfl]

/-- Behind the rest of the split object every entry moves up by one. -/
theorem objs_split_add {m : MallocMap} {i size j : ℕ} (hi : i ≤ m.mallocObjCount)
    (hj : i + j < m.mallocObjCount) : (m.split i size).objs (i + 2 + j) = m.objs (i + 1 + j) := by
  rw [objs_split hi, if_neg (by omega), if_neg (by omega), if_neg (by omega), if_pos (by omega),
    show i + 2 + j - 1 = i + 1 + j by omega]

/-- A flag is not a size. -/
theorem size_setObj_used (m : MallocMap) (i : ℕ) :
    (m.setObj i { m.objs i with used := true }).size = m.size := by
  ext j : 1
  rw [size, setObj_objs, Function.update_apply]
  split
  · next hj => rw [hj]; rfl
  · rfl

theorem offset_setObj_used (m : MallocMap) (i j : ℕ) :
    (m.setObj i { m.objs i with used := true }).offset j = m.offset j := by
  induction j with
  | zero => rfl
  | succ j ih => rw [offset_succ, offset_succ, ih, size_setObj_used]

theorem mem_split_touched {m : MallocMap} {i size t : ℕ} (hi : i ≤ m.mallocObjCount) :
    t ∈ (m.split i size).touched ↔ (i ≤ t ∧ t ≤ m.mallocObjCount + 1) ∨ t ∈ m.touched := by
  simp only [split, mem_setObj_touched, mem_shiftRight_touched]
  grind

/-- **The four merges** of `syscall_free`: none, with the next object, with the previous one, with
both.  In the last three the merged size is computed from entry `i + 1`. -/
theorem merge_cases (m : MallocMap) (i : ℕ) :
    ((i < m.mallocObjCount → (m.objs (i + 1)).used = true) ∧
      (∀ k, i = k + 1 → (m.objs k).used = true) ∧
      m.move i = 0 ∧ m.target i = i ∧ m.emptySize i = m.size i) ∨
    (i < m.mallocObjCount ∧ (m.objs (i + 1)).used = false ∧
      (∀ k, i = k + 1 → (m.objs k).used = true) ∧
      m.move i = 1 ∧ m.target i = i ∧
      m.emptySize i = (m.size i + m.size (i + 1)) % 2 ^ 16) ∨
    ((i < m.mallocObjCount → (m.objs (i + 1)).used = true) ∧
      (∃ k, i = k + 1 ∧ (m.objs k).used = false ∧ m.target i = k) ∧
      m.move i = 1 ∧ m.emptySize i = (m.size i + m.size (i + 1)) % 2 ^ 16) ∨
    (i < m.mallocObjCount ∧ (m.objs (i + 1)).used = false ∧
      (∃ k, i = k + 1 ∧ (m.objs k).used = false ∧ m.target i = k) ∧
      m.move i = 2 ∧
      m.emptySize i = ((m.size i + m.size (i + 1)) % 2 ^ 16 + m.size (i + 1)) % 2 ^ 16) := by
  have hnext : m.mergesNext i = true ↔ i < m.mallocObjCount ∧ (m.objs (i + 1)).used = false := by
    simp [mergesNext]
  have hprev : m.mergesPrev i = true ↔ ∃ k, i = k + 1 ∧ (m.objs k).used = false := by
    cases i with
    | zero => simp [mergesPrev]
    | succ k => simp [mergesPrev]
  cases hn : m.mergesNext i with
  | false =>
    have hn' : i < m.mallocObjCount → (m.objs (i + 1)).used = true := by
      simpa [hn] using hnext
    cases hp : m.mergesPrev i with
    | false =>
      have hp' : ∀ k, i = k + 1 → (m.objs k).used = true := by
        simpa [hp] using hprev
      exact Or.inl ⟨hn', hp', by simp [move, hn, hp], by simp [target, hp],
        by simp [emptySize, hn, hp]⟩
    | true =>
      obtain ⟨k, rfl, hk⟩ := hprev.mp hp
      exact Or.inr (Or.inr (Or.inl ⟨hn', ⟨k, rfl, hk, by simp [target, hp]⟩,
        by simp [move, hn, hp], by simp [emptySize, hn, hp]⟩))
  | true =>
    obtain ⟨hi, hu⟩ := hnext.mp hn
    cases hp : m.mergesPrev i with
    | false =>
      have hp' : ∀ k, i = k + 1 → (m.objs k).used = true := by
        simpa [hp] using hprev
      exact Or.inr (Or.inl ⟨hi, hu, hp', by simp [move, hn, hp], by simp [target, hp],
        by simp [emptySize, hn, hp]⟩)
    | true =>
      obtain ⟨k, rfl, hk⟩ := hprev.mp hp
      exact Or.inr (Or.inr (Or.inr ⟨hi, hu, ⟨k, rfl, hk, by simp [target, hp]⟩,
        by simp [move, hn, hp], by simp [emptySize, hn, hp]⟩))

@[simp] theorem release_mallocObjCount (m : MallocMap) (i : ℕ) :
    (m.release i).mallocObjCount = m.mallocObjCount - m.move i := by
  simp [release]

/-- The map after a release, entry by entry. -/
theorem objs_release (m : MallocMap) (i t : ℕ) :
    (m.release i).objs t =
      if t = m.target i then ⟨false, BitVec.ofNat 15 (m.emptySize i)⟩
      else if m.target i < t ∧ t < m.mallocObjCount - m.move i then m.objs (t + m.move i)
      else m.objs t := by
  simp only [release, setObj_objs, Function.update_apply, shiftLeft_objs]
  by_cases h : t = m.target i
  · rw [if_pos h, if_pos h]
  · rw [if_neg h, if_neg h]
    by_cases h' : m.target i < t ∧ t < m.mallocObjCount - m.move i
    · rw [if_pos h', if_pos (by omega)]
    · rw [if_neg h', if_neg (by omega)]

theorem mem_release_touched {m : MallocMap} {i t : ℕ} :
    t ∈ (m.release i).touched ↔ t = m.target i ∨
      (m.target i < t ∧ t < m.mallocObjCount - m.move i) ∨
      (m.target i + m.move i < t ∧ t < m.mallocObjCount ∧
        m.target i + 1 < m.mallocObjCount - m.move i) ∨
      t ∈ m.mergeReads i ∨ t ∈ m.touched := by
  simp only [release, mem_setObj_touched, mem_shiftLeft_touched, List.mem_append]
  constructor
  · rintro (h | h | h | h | h)
    · exact Or.inl h
    · exact Or.inr (Or.inl (by omega))
    · exact Or.inr (Or.inr (Or.inl (by omega)))
    · exact Or.inr (Or.inr (Or.inr (Or.inl h)))
    · exact Or.inr (Or.inr (Or.inr (Or.inr h)))
  · rintro (h | h | h | h | h)
    · exact Or.inl h
    · exact Or.inr (Or.inl (by omega))
    · exact Or.inr (Or.inr (Or.inl (by omega)))
    · exact Or.inr (Or.inr (Or.inr (Or.inl h)))
    · exact Or.inr (Or.inr (Or.inr (Or.inr h)))

end MallocMap
end Heap
end CoreOS
