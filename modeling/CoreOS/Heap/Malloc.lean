import CoreOS.Lib.Runs
import Mathlib.Algebra.Group.Nat.Defs
import Mathlib.Data.Int.Notation
import Mathlib.Logic.Function.Basic

/-!
# `syscall_malloc` and `syscall_free`

The allocator of `syscall.c`.  A process owns a heap of 8192 blocks of 32 bytes and, right below
it, a map of 2048 two-byte entries `malloc_obj_t`, one for each object of the heap in address
order.  Addresses are not stored: both calls walk the map from `HEAP_START` and add up sizes.

The map is modelled as the memory it is: a function from every index to an entry.  The entries at
`malloc_obj_count` and above are whatever earlier calls, or an earlier owner of the page, left
there, and the entry at index 2048 is the first two bytes of the heap itself.  The field `touched`
records every index the two calls read or write, so that a statement about where they reach is a
statement about the code and not about a summary of it.
-/

namespace CoreOS
namespace Heap

/-! ## The map -/

/-- `MALLOC_MAP_SIZE`, in bytes. -/
def mallocMapSize : ℕ := 4096

/-- `MALLOC_HEAP_SIZE`, in blocks. -/
def mallocHeapSize : ℕ := 256 * 1024 / 32

/-- `MALLOC_OBJ_NUM`. -/
def mallocObjNum : ℕ := 2048

/-- `MALLOC_BLOCK_SIZE`, in bytes. -/
def mallocBlockSize : ℕ := 32

/-- `PCB_SIZE`, the size of `PCB_t`: eight `FILE`s of 20 bytes, four pointers, three bytes padded
to four, the object count and five handler pointers. -/
def pcbSize : ℕ := 8 * 20 + 4 * 4 + 4 + 4 + 5 * 4

/-- `HEAP_START`. -/
def heapStart : ℕ := 0x8000000 + pcbSize + mallocMapSize

/-- The first address after the heap. -/
def heapEnd : ℕ := heapStart + 256 * 1024

/-- `malloc_obj_t`: a flag and a size in blocks, packed in two bytes. -/
structure MallocObj where
  /-- `used : 1` -/
  used : Bool
  /-- `size : 15` -/
  size : BitVec 15
  deriving DecidableEq

/-- The map of one process, with the object count kept in its PCB. -/
structure MallocMap where
  /-- `malloc_objs`, as memory. -/
  objs : ℕ → MallocObj
  /-- `malloc_obj_count`. -/
  mallocObjCount : ℕ
  /-- Every index read or written so far. -/
  touched : List ℕ

namespace MallocMap

/-- The size of entry `i`, in blocks. -/
def size (m : MallocMap) (i : ℕ) : ℕ := (m.objs i).size.toNat

/-- Entry `i` is read. -/
def touch (m : MallocMap) (i : ℕ) : MallocMap := { m with touched := i :: m.touched }

/-- `malloc_objs[i] = o`. -/
def setObj (m : MallocMap) (i : ℕ) (o : MallocObj) : MallocMap :=
  { m with objs := Function.update m.objs i o, touched := i :: m.touched }

/-- `malloc_objs[dst] = malloc_objs[src]`. -/
def copyObj (m : MallocMap) (src dst : ℕ) : MallocMap := (m.touch src).setObj dst (m.objs src)

/-- The loop `for (j = count; j >= i; j --) malloc_objs[j + 1] = malloc_objs[j]`, with `j = i + k`
and `k + 1` rounds left to go. -/
def shiftRight (i : ℕ) : ℕ → MallocMap → MallocMap
  | 0, m => m
  | k + 1, m => shiftRight i k (m.copyObj (i + k) (i + k + 1))

/-- The loop `for (; j < count; j ++) malloc_objs[j] = malloc_objs[j + move]`, `k` rounds of it. -/
def shiftLeft (move : ℕ) : ℕ → ℕ → MallocMap → MallocMap
  | 0, _, m => m
  | k + 1, j, m => shiftLeft move k (j + 1) (m.copyObj (j + move) j)

/-! ## `syscall_malloc` -/

/-- Take the front of the unused object `i`: shift the map from `i` on by one entry, make entry `i`
a used object of `size / 32 + 1` blocks and leave the rest of it unused in entry `i + 1`. -/
def split (m : MallocMap) (i size : ℕ) : MallocMap :=
  let objBlockSize := m.size i
  let m := shiftRight i (m.mallocObjCount + 1 - i) m
  let m := m.setObj i ⟨true, BitVec.ofNat 15 (size / 32 + 1)⟩
  let m := m.setObj (i + 1)
    { m.objs (i + 1) with size := BitVec.ofNat 15 (objBlockSize - m.size i) }
  { m with mallocObjCount := m.mallocObjCount + 1 }

/-- The probing loop, with `k` entries left, at entry `i` and address `objPtr`. -/
def mallocProbe (size : ℕ) : ℕ → ℕ → ℕ → MallocMap → ℕ × MallocMap
  | 0, _, _, m => (0, m)
  | k + 1, i, objPtr, m =>
    let m := m.touch i
    let objSize := m.size i * mallocBlockSize
    if (m.objs i).used then
      mallocProbe size k (i + 1) (objPtr + m.size i * mallocBlockSize) m
    else if size < objSize then
      if m.mallocObjCount = mallocObjNum then (0, m) else (objPtr, m.split i size)
    else if objSize < size then
      mallocProbe size k (i + 1) (objPtr + m.size i * mallocBlockSize) m
    else
      (objPtr, m.setObj i { m.objs i with used := true })

/-- `syscall_malloc`: the pointer returned, `0` for `NULL`, and the map after the call. -/
def syscallMalloc (m : MallocMap) (size : BitVec 32) : ℕ × MallocMap :=
  mallocProbe size.toNat m.mallocObjCount 0 heapStart m

/-! ## `syscall_free` -/

/-- The loop that looks for `ptr`, with `k` entries left, at entry `i` and address `objPtr`: the
entry and the address it stops at. -/
def freeWalk (ptr : ℕ) : ℕ → ℕ → ℕ → MallocMap → ℕ × ℕ × MallocMap
  | 0, i, objPtr, m => (i, objPtr, m)
  | k + 1, i, objPtr, m =>
    if objPtr < ptr then
      freeWalk ptr k (i + 1) (objPtr + m.size i * mallocBlockSize) (m.touch i)
    else (i, objPtr, m)

/-- `i < malloc_obj_count && !malloc_objs[i + 1].used`. -/
def mergesNext (m : MallocMap) (i : ℕ) : Bool :=
  decide (i < m.mallocObjCount) && !(m.objs (i + 1)).used

/-- `i > 0 && malloc_objs[i - 1].used == 0`. -/
def mergesPrev (m : MallocMap) (i : ℕ) : Bool := decide (0 < i) && !(m.objs (i - 1)).used

/-- `move`, the number of entries the merged object absorbs. -/
def move (m : MallocMap) (i : ℕ) : ℕ := (m.mergesNext i).toNat + (m.mergesPrev i).toNat

/-- `empty_size`, a `uint16_t`.  Both merges add the size of entry `i + 1`. -/
def emptySize (m : MallocMap) (i : ℕ) : ℕ :=
  let empty := m.size i
  let empty := if m.mergesNext i then (empty + m.size (i + 1)) % 2 ^ 16 else empty
  if m.mergesPrev i then (empty + m.size (i + 1)) % 2 ^ 16 else empty

/-- The entry that receives the merged object. -/
def target (m : MallocMap) (i : ℕ) : ℕ := if m.mergesPrev i then i - 1 else i

/-- The entries the merging tests of `syscall_free` read. -/
def mergeReads (m : MallocMap) (i : ℕ) : List ℕ :=
  [i] ++ (if i < m.mallocObjCount then [i + 1] else []) ++ (if 0 < i then [i - 1] else [])
    ++ (if m.mergesPrev i then [i + 1] else [])

/-- The part of `syscall_free` after the pointer has been found to be the address of entry `i`. -/
def release (m : MallocMap) (i : ℕ) : MallocMap :=
  let move := m.move i
  let target := m.target i
  let empty := m.emptySize i
  let m := { m with
    mallocObjCount := m.mallocObjCount - move
    touched := m.mergeReads i ++ m.touched }
  let m := shiftLeft move (m.mallocObjCount - (target + 1)) (target + 1) m
  m.setObj target ⟨false, BitVec.ofNat 15 empty⟩

/-- `syscall_free`: the value returned and the map after the call. -/
def syscallFree (m : MallocMap) (ptr : ℕ) : ℤ × MallocMap :=
  if ptr = 0 then (0, m)
  else
    let (i, objPtr, m) := freeWalk ptr m.mallocObjCount 0 heapStart m
    if objPtr ≠ ptr then (-1, m) else (0, m.release i)

end MallocMap

/-! ## Histories of a heap -/

/-- One call on the heap. -/
inductive Call where
  | malloc (size : BitVec 32)
  | free (ptr : ℕ)
  deriving DecidableEq

/-- The map after a call. -/
def exec (m : MallocMap) : Call → MallocMap
  | .malloc size => (m.syscallMalloc size).2
  | .free ptr => (m.syscallFree ptr).2

/-- What a call returns. -/
def result (m : MallocMap) : Call → ℤ
  | .malloc size => (m.syscallMalloc size).1
  | .free ptr => (m.syscallFree ptr).1

/-- The map `_syscall_execute` gives a fresh process.  Only entry `0` is written; the others keep
the contents `stale` of the page. -/
def fresh (stale : ℕ → MallocObj) : MallocMap where
  objs := Function.update stale 0 ⟨false, BitVec.ofNat 15 mallocHeapSize⟩
  mallocObjCount := 1
  touched := []

end Heap
end CoreOS
