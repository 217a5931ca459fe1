import CoreOS.Lib.BitField
import CoreOS.Proc.Table
import Mathlib.Data.BitVec

/-!
# Page tables

`init_page` fills a page directory and two page tables, member by member of their entries, some of
them in loops that later assignments override.  After that two members are assigned to, one when a
process is installed and one when it is switched to.  What all of this amounts to is for the
processor to say: `translate` is its walk through the tables.

An entry is a word.  The two structures of the union `PDE_t` are two layouts of that word, and
`page_size` tells the processor which one it is.
-/

namespace CoreOS
namespace Page

open BitField

/-- An entry of a table. -/
abbrev Entry : Type := BitVec 32

/-! ## Layouts -/

namespace PagePDE

/-- `present` -/
def present : Member := ⟨0, 1⟩
/-- `read_write` -/
def readWrite : Member := ⟨1, 1⟩
/-- `user_super` -/
def userSuper : Member := ⟨2, 1⟩
/-- `pwt` -/
def pwt : Member := ⟨3, 1⟩
/-- `pcd` -/
def pcd : Member := ⟨4, 1⟩
/-- `accessed` -/
def accessed : Member := ⟨5, 1⟩
/-- `dirty` -/
def dirty : Member := ⟨6, 1⟩
/-- `page_size` -/
def pageSize : Member := ⟨7, 1⟩
/-- `global` -/
def global : Member := ⟨8, 1⟩
/-- `available` -/
def available : Member := ⟨9, 3⟩
/-- `pat` -/
def pat : Member := ⟨12, 1⟩
/-- `reserved` -/
def reserved : Member := ⟨13, 9⟩
/-- `page_addr` -/
def pageAddr : Member := ⟨22, 10⟩

/-- `page_PDE` -/
def layout : List Member :=
  [present, readWrite, userSuper, pwt, pcd, accessed, dirty, pageSize, global, available, pat,
    reserved, pageAddr]

end PagePDE

namespace TablePDE

/-- `present` -/
def present : Member := ⟨0, 1⟩
/-- `read_write` -/
def readWrite : Member := ⟨1, 1⟩
/-- `user_super` -/
def userSuper : Member := ⟨2, 1⟩
/-- `pwt` -/
def pwt : Member := ⟨3, 1⟩
/-- `pcd` -/
def pcd : Member := ⟨4, 1⟩
/-- `accessed` -/
def accessed : Member := ⟨5, 1⟩
/-- `reserved` -/
def reserved : Member := ⟨6, 1⟩
/-- `page_size` -/
def pageSize : Member := ⟨7, 1⟩
/-- `global` -/
def global : Member := ⟨8, 1⟩
/-- `available` -/
def available : Member := ⟨9, 3⟩
/-- `table_addr` -/
def tableAddr : Member := ⟨12, 20⟩

/-- `table_PDE` -/
def layout : List Member :=
  [present, readWrite, userSuper, pwt, pcd, accessed, reserved, pageSize, global, available,
    tableAddr]

end TablePDE

namespace PTE

/-- `present` -/
def present : Member := ⟨0, 1⟩
/-- `read_write` -/
def readWrite : Member := ⟨1, 1⟩
/-- `user_super` -/
def userSuper : Member := ⟨2, 1⟩
/-- `pwt` -/
def pwt : Member := ⟨3, 1⟩
/-- `pcd` -/
def pcd : Member := ⟨4, 1⟩
/-- `accessed` -/
def accessed : Member := ⟨5, 1⟩
/-- `dirty` -/
def dirty : Member := ⟨6, 1⟩
/-- `pat` -/
def pat : Member := ⟨7, 1⟩
/-- `global` -/
def global : Member := ⟨8, 1⟩
/-- `available` -/
def available : Member := ⟨9, 3⟩
/-- `page_addr` -/
def pageAddr : Member := ⟨12, 20⟩

/-- `PTE_t` -/
def layout : List Member :=
  [present, readWrite, userSuper, pwt, pcd, accessed, dirty, pat, global, available, pageAddr]

end PTE

/-! ## The tables -/

/-- `MAX_ENTRIES`. -/
def maxEntries : ℕ := 1024

/-- `USER_VIDMEM_INDEX`. -/
def userVidmemIndex : ℕ := 0x8800000 >>> 22

/-- `page_directory` and the two page tables. -/
structure Tables where
  pageDirectory : ℕ → Entry
  vidmemPageTable : ℕ → Entry
  userVidmemPageTable : ℕ → Entry

/-- The addresses of the two page tables.  They are aligned and different. -/
structure Symbols where
  vidmemPageTable : BitVec 32
  userVidmemPageTable : BitVec 32
  vidmem_aligned : vidmemPageTable.toNat % 4096 = 0
  userVidmem_aligned : userVidmemPageTable.toNat % 4096 = 0
  ne : vidmemPageTable ≠ userVidmemPageTable

/-- Assignments to members of one entry of a table. -/
def setEntry (table : ℕ → Entry) (i : ℕ) (as : List (Member × Entry)) : ℕ → Entry :=
  Function.update table i (assign as (table i))

/-! ## `init_page` -/

/-- The assignments for `page_directory[0]`. -/
def vidmemPDE (sym : Symbols) : List (Member × Entry) :=
  [(TablePDE.present, 1), (TablePDE.readWrite, 1), (TablePDE.userSuper, 0), (TablePDE.pwt, 0),
    (TablePDE.pcd, 0), (TablePDE.accessed, 0), (TablePDE.reserved, 0), (TablePDE.pageSize, 0),
    (TablePDE.global, 0), (TablePDE.available, 0), (TablePDE.tableAddr, sym.vidmemPageTable >>> 12)]

/-- The assignments for `page_directory[1]`. -/
def kernelPDE : List (Member × Entry) :=
  [(PagePDE.present, 1), (PagePDE.readWrite, 1), (PagePDE.userSuper, 1), (PagePDE.pwt, 0),
    (PagePDE.pcd, 0), (PagePDE.accessed, 0), (PagePDE.dirty, 0), (PagePDE.pageSize, 1),
    (PagePDE.global, 1), (PagePDE.available, 0), (PagePDE.pat, 0), (PagePDE.reserved, 0),
    (PagePDE.pageAddr, 1)]

/-- The pages of `vidmem_page_table` that are present: that of the screen, and one behind it for each
terminal. -/
def isVidmemPage (i : ℕ) : Prop :=
  i = Proc.vidMemAddr ∨ i = Proc.background1 ∨ i = Proc.background1 + 1 ∨ i = Proc.background1 + 2

instance (i : ℕ) : Decidable (isVidmemPage i) := inferInstanceAs (Decidable (_ ∨ _))

/-- The assignments for `vidmem_page_table[i]`. -/
def vidmemPTE (i : ℕ) : List (Member × Entry) :=
  let on : Entry := if isVidmemPage i then 1 else 0
  [(PTE.present, on), (PTE.userSuper, on), (PTE.readWrite, 1), (PTE.pwt, 0), (PTE.pcd, 0),
    (PTE.accessed, 0), (PTE.dirty, 0), (PTE.pat, 0), (PTE.global, 0), (PTE.available, 0),
    (PTE.pageAddr, BitVec.ofNat 32 i)]

/-- The assignments for `user_vidmem_page_table[i]`. -/
def userVidmemPTE (i : ℕ) : List (Member × Entry) :=
  [(PTE.readWrite, 1), (PTE.pwt, 0), (PTE.pcd, 0), (PTE.accessed, 0), (PTE.dirty, 0), (PTE.pat, 0),
    (PTE.global, 0), (PTE.available, 0), (PTE.pageAddr, BitVec.ofNat 32 i)] ++
  if i = 0 then
    [(PTE.present, 1), (PTE.userSuper, 1), (PTE.pageAddr, BitVec.ofNat 32 Proc.vidMemAddr)]
  else [(PTE.present, 0), (PTE.userSuper, 0)]

/-- The assignments for the rest of the page directory. -/
def absentPDE : List (Member × Entry) :=
  [(PagePDE.present, 0), (PagePDE.readWrite, 1), (PagePDE.userSuper, 0), (PagePDE.pwt, 0),
    (PagePDE.pcd, 0), (PagePDE.accessed, 0), (PagePDE.dirty, 0), (PagePDE.pageSize, 1),
    (PagePDE.global, 0), (PagePDE.available, 0), (PagePDE.pat, 0), (PagePDE.reserved, 0),
    (PagePDE.pageAddr, 0)]

/-- The assignments for `page_directory[USER_PAGE_INDEX]`. -/
def userPDE : List (Member × Entry) :=
  [(PagePDE.present, 1), (PagePDE.readWrite, 1), (PagePDE.userSuper, 1), (PagePDE.pwt, 0),
    (PagePDE.pcd, 0), (PagePDE.accessed, 0), (PagePDE.dirty, 0), (PagePDE.pageSize, 1),
    (PagePDE.global, 0), (PagePDE.available, 0), (PagePDE.pat, 0), (PagePDE.reserved, 0),
    (PagePDE.pageAddr, BitVec.ofNat 32 Proc.userPageIndex)]

/-- The assignments for `page_directory[USER_VIDMEM_INDEX]`. -/
def userVidmemPDE (sym : Symbols) : List (Member × Entry) :=
  [(TablePDE.present, 1), (TablePDE.readWrite, 1), (TablePDE.userSuper, 1), (TablePDE.pwt, 0),
    (TablePDE.pcd, 0), (TablePDE.accessed, 0), (TablePDE.pageSize, 0), (TablePDE.global, 0),
    (TablePDE.available, 0), (TablePDE.reserved, 0),
    (TablePDE.tableAddr, sym.userVidmemPageTable >>> 12)]

/-- `init_page`, with what the tables held before. -/
def initPage (sym : Symbols) (t : Tables) : Tables :=
  let dir := setEntry t.pageDirectory 0 (vidmemPDE sym)
  let dir := setEntry dir 1 kernelPDE
  let vidmem := (List.range maxEntries).foldl (fun v i => setEntry v i (vidmemPTE i)) t.vidmemPageTable
  let userVidmem :=
    (List.range maxEntries).foldl (fun v i => setEntry v i (userVidmemPTE i)) t.userVidmemPageTable
  let dir := (List.range' 2 (maxEntries - 2)).foldl (fun d j => setEntry d j absentPDE) dir
  let dir := setEntry dir Proc.userPageIndex userPDE
  let dir := setEntry dir userVidmemIndex (userVidmemPDE sym)
  { pageDirectory := dir, vidmemPageTable := vidmem, userVidmemPageTable := userVidmem }

/-- The two assignments of a process that is installed: the page of the program, and that of the
screen. -/
def Tables.install (t : Tables) (s : Proc.Table) : Tables :=
  { t with
    pageDirectory :=
      setEntry t.pageDirectory Proc.userPageIndex [(PagePDE.pageAddr, BitVec.ofNat 32 s.userPage)]
    userVidmemPageTable :=
      setEntry t.userVidmemPageTable 0 [(PTE.pageAddr, BitVec.ofNat 32 s.vidmemPage)] }

/-! ## The processor -/

/-- The page table at a page of memory, if it is one of the two. -/
def tableAt (sym : Symbols) (t : Tables) (pageAddr : Entry) : Option (ℕ → Entry) :=
  if pageAddr = sym.vidmemPageTable >>> 12 then some t.vidmemPageTable
  else if pageAddr = sym.userVidmemPageTable >>> 12 then some t.userVidmemPageTable
  else none

/-- The walk of the processor: the physical address, and whether a program may use it, or `none` for a
page fault. -/
def translate (sym : Symbols) (t : Tables) (va : BitVec 32) : Option (ℕ × Bool) :=
  let pde := t.pageDirectory (va.toNat / 2 ^ 22)
  if PagePDE.present.get pde = 0 then none
  else if PagePDE.pageSize.get pde ≠ 0 then
    some ((PagePDE.pageAddr.get pde).toNat * 2 ^ 22 + va.toNat % 2 ^ 22,
      decide (PagePDE.userSuper.get pde ≠ 0))
  else
    (tableAt sym t (TablePDE.tableAddr.get pde)).bind fun table =>
      let pte := table (va.toNat / 2 ^ 12 % maxEntries)
      if PTE.present.get pte = 0 then none
      else
        some ((PTE.pageAddr.get pte).toNat * 2 ^ 12 + va.toNat % 2 ^ 12,
          decide (TablePDE.userSuper.get pde ≠ 0 ∧ PTE.userSuper.get pte ≠ 0))

/-! ## Runs -/

/-- The process table and the page tables. -/
structure Machine where
  table : Proc.Table
  tables : Tables

/-- After `init_page`. -/
def boot (sym : Symbols) (t : Tables) (pcbs : ℕ → Proc.PCB) (esp0 : ℕ) : Machine where
  table := Proc.boot pcbs esp0
  tables := initPage sym t

/-- One event.  What the code assigns to the page tables is what the process table has.  Where it assigns
to neither of the two entries they have these values already. -/
def step (m : Machine) (e : Proc.Event) : Machine where
  table := Proc.step m.table e
  tables := m.tables.install (Proc.step m.table e)

end Page
end CoreOS
