import CoreOS.Page.Tables

/-!
# What the page tables map

The tables of `init_page` are filled entry by entry and member by member, and the processor walks
through them for each address.  What comes out is a map with four pieces: the pages of the screen, the
kernel, the program, and the page through which a program paints.  `intended` is that map, and
`translate_eq` says that the walk computes it.

Between the two is `Entries`, which says of each entry only what the walk looks at.  It holds after
`init_page`, and what the kernel assigns to the tables later keeps it.
-/

namespace CoreOS
namespace Page

open BitField

/-! ## Entries, as the walk sees them -/

/-- An entry of the directory for a page of 4 MB. -/
structure PageEntry (x : Entry) (user addr : Entry) : Prop where
  present : PagePDE.present.get x = 1
  userSuper : PagePDE.userSuper.get x = user
  pageSize : PagePDE.pageSize.get x = 1
  pageAddr : PagePDE.pageAddr.get x = addr

/-- An entry of the directory for a page table. -/
structure TableEntry (x : Entry) (user addr : Entry) : Prop where
  present : TablePDE.present.get x = 1
  userSuper : TablePDE.userSuper.get x = user
  pageSize : TablePDE.pageSize.get x = 0
  tableAddr : TablePDE.tableAddr.get x = addr

/-- An entry of a page table for a page. -/
structure FrameEntry (x : Entry) (user addr : Entry) : Prop where
  present : PTE.present.get x = 1
  userSuper : PTE.userSuper.get x = user
  pageAddr : PTE.pageAddr.get x = addr

/-- The directory has an entry for the index. -/
def inDirectory (k : ℕ) : Prop :=
  k = 0 ∨ k = 1 ∨ k = Proc.userPageIndex ∨ k = userVidmemIndex

instance (k : ℕ) : Decidable (inDirectory k) := inferInstanceAs (Decidable (_ ∨ _))

/-- The tables, with page `u` for the program and page `v` for its painting. -/
structure Entries (sym : Symbols) (t : Tables) (u v : ℕ) : Prop where
  vidmem : TableEntry (t.pageDirectory 0) 0 (sym.vidmemPageTable >>> 12)
  kernel : PageEntry (t.pageDirectory 1) 1 1
  user : PageEntry (t.pageDirectory Proc.userPageIndex) 1 (BitVec.ofNat 32 u)
  userVidmem : TableEntry (t.pageDirectory userVidmemIndex) 1 (sym.userVidmemPageTable >>> 12)
  absent : ∀ k, k < maxEntries → ¬ inDirectory k → PagePDE.present.get (t.pageDirectory k) = 0
  vidmemPage : ∀ k, k < maxEntries → isVidmemPage k →
    FrameEntry (t.vidmemPageTable k) 1 (BitVec.ofNat 32 k)
  vidmemAbsent : ∀ k, k < maxEntries → ¬ isVidmemPage k → PTE.present.get (t.vidmemPageTable k) = 0
  userVidmemPage : FrameEntry (t.userVidmemPageTable 0) 1 (BitVec.ofNat 32 v)
  userVidmemAbsent : ∀ k, k < maxEntries → k ≠ 0 →
    PTE.present.get (t.userVidmemPageTable k) = 0

/-! ## Filling the tables -/

/-- A loop that assigns to each entry of a list once. -/
theorem foldl_setEntry (as : ℕ → List (Member × Entry)) {l : List ℕ} (hl : l.Nodup) (t : ℕ → Entry)
    (k : ℕ) : l.foldl (fun t i => setEntry t i (as i)) t k =
      if k ∈ l then assign (as k) (t k) else t k := by
  induction l generalizing t with
  | nil => rfl
  | cons i l ih =>
    obtain ⟨hi, hl⟩ := List.nodup_cons.mp hl
    rw [List.foldl_cons, ih hl, setEntry]
    by_cases hk : k = i
    · subst hk
      rw [if_neg hi, if_pos List.mem_cons_self, Function.update_self]
    · rw [Function.update_of_ne hk]
      by_cases hmem : k ∈ l
      · rw [if_pos hmem, if_pos (List.mem_cons_of_mem i hmem)]
      · rw [if_neg hmem, if_neg]
        intro h
        exact (List.mem_cons.mp h).elim hk hmem

theorem isLayout_pagePDE : IsLayout 32 PagePDE.layout := by decide

theorem isLayout_tablePDE : IsLayout 32 TablePDE.layout := by decide

theorem isLayout_pte : IsLayout 32 PTE.layout := by decide

/-- An entry that is assigned to as one for a page. -/
theorem pageEntry_assign {as : List (Member × Entry)} (has : Fits PagePDE.layout as)
    {x user addr : Entry} (hpresent : lastOf PagePDE.present as (PagePDE.present.get x) = 1)
    (huser : lastOf PagePDE.userSuper as (PagePDE.userSuper.get x) = user)
    (hsize : lastOf PagePDE.pageSize as (PagePDE.pageSize.get x) = 1)
    (haddr : lastOf PagePDE.pageAddr as (PagePDE.pageAddr.get x) = addr) :
    PageEntry (assign as x) user addr where
  present := (get_assign isLayout_pagePDE has (by decide) x).trans hpresent
  userSuper := (get_assign isLayout_pagePDE has (by decide) x).trans huser
  pageSize := (get_assign isLayout_pagePDE has (by decide) x).trans hsize
  pageAddr := (get_assign isLayout_pagePDE has (by decide) x).trans haddr

/-- An entry that is assigned to as one for a page table. -/
theorem tableEntry_assign {as : List (Member × Entry)} (has : Fits TablePDE.layout as)
    {x user addr : Entry} (hpresent : lastOf TablePDE.present as (TablePDE.present.get x) = 1)
    (huser : lastOf TablePDE.userSuper as (TablePDE.userSuper.get x) = user)
    (hsize : lastOf TablePDE.pageSize as (TablePDE.pageSize.get x) = 0)
    (haddr : lastOf TablePDE.tableAddr as (TablePDE.tableAddr.get x) = addr) :
    TableEntry (assign as x) user addr where
  present := (get_assign isLayout_tablePDE has (by decide) x).trans hpresent
  userSuper := (get_assign isLayout_tablePDE has (by decide) x).trans huser
  pageSize := (get_assign isLayout_tablePDE has (by decide) x).trans hsize
  tableAddr := (get_assign isLayout_tablePDE has (by decide) x).trans haddr

/-- An entry of a page table that is assigned to. -/
theorem frameEntry_assign {as : List (Member × Entry)} (has : Fits PTE.layout as)
    {x user addr : Entry} (hpresent : lastOf PTE.present as (PTE.present.get x) = 1)
    (huser : lastOf PTE.userSuper as (PTE.userSuper.get x) = user)
    (haddr : lastOf PTE.pageAddr as (PTE.pageAddr.get x) = addr) :
    FrameEntry (assign as x) user addr where
  present := (get_assign isLayout_pte has (by decide) x).trans hpresent
  userSuper := (get_assign isLayout_pte has (by decide) x).trans huser
  pageAddr := (get_assign isLayout_pte has (by decide) x).trans haddr

/-- The number of a page table fits. -/
theorem toNat_shift_lt (a : BitVec 32) : (a >>> 12).toNat < 2 ^ 20 := by
  rw [BitVec.toNat_ushiftRight, Nat.shiftRight_eq_div_pow]
  exact Nat.div_lt_of_lt_mul a.isLt

theorem mem_tableAddr : TablePDE.tableAddr ∈ TablePDE.layout := by decide

theorem mem_pageAddr : PTE.pageAddr ∈ PTE.layout := by decide

theorem fits_vidmemPDE (sym : Symbols) : Fits TablePDE.layout (vidmemPDE sym) := by
  intro a ha
  simp only [vidmemPDE, List.mem_cons, List.not_mem_nil, or_false] at ha
  rcases ha with rfl | rfl | rfl | rfl | rfl | rfl | rfl | rfl | rfl | rfl | rfl
  any_goals decide
  exact ⟨mem_tableAddr, toNat_shift_lt _⟩

theorem fits_userVidmemPDE (sym : Symbols) : Fits TablePDE.layout (userVidmemPDE sym) := by
  intro a ha
  simp only [userVidmemPDE, List.mem_cons, List.not_mem_nil, or_false] at ha
  rcases ha with rfl | rfl | rfl | rfl | rfl | rfl | rfl | rfl | rfl | rfl | rfl
  any_goals decide
  exact ⟨mem_tableAddr, toNat_shift_lt _⟩

/-- The number of an entry fits into its address. -/
theorem toNat_ofNat_lt {i : ℕ} (hi : i < maxEntries) : (BitVec.ofNat 32 i).toNat < 2 ^ 20 := by
  unfold maxEntries at hi
  rw [BitVec.toNat_ofNat, Nat.mod_eq_of_lt (by omega)]
  omega

theorem fits_vidmemPTE {i : ℕ} (hi : i < maxEntries) : Fits PTE.layout (vidmemPTE i) := by
  have hpresent : PTE.present ∈ PTE.layout := by decide
  have huser : PTE.userSuper ∈ PTE.layout := by decide
  have hon : (if isVidmemPage i then (1 : Entry) else 0).toNat < 2 ^ 1 := by
    split
    · decide
    · decide
  intro a ha
  simp only [vidmemPTE, List.mem_cons, List.not_mem_nil, or_false] at ha
  rcases ha with rfl | rfl | rfl | rfl | rfl | rfl | rfl | rfl | rfl | rfl | rfl
  any_goals decide
  · exact ⟨hpresent, hon⟩
  · exact ⟨huser, hon⟩
  · exact ⟨mem_pageAddr, toNat_ofNat_lt hi⟩

theorem fits_userVidmemPTE {i : ℕ} (hi : i < maxEntries) : Fits PTE.layout (userVidmemPTE i) := by
  have hlast : Fits PTE.layout (if i = 0 then
      [(PTE.present, 1), (PTE.userSuper, 1), (PTE.pageAddr, BitVec.ofNat 32 Proc.vidMemAddr)]
      else [(PTE.present, 0), (PTE.userSuper, 0)] : List (Member × Entry)) := by
    split
    · decide
    · decide
  intro a ha
  rcases List.mem_append.mp ha with ha | ha
  · simp only [List.mem_cons, List.not_mem_nil, or_false] at ha
    rcases ha with rfl | rfl | rfl | rfl | rfl | rfl | rfl | rfl | rfl
    any_goals decide
    exact ⟨mem_pageAddr, toNat_ofNat_lt hi⟩
  · exact hlast a ha

/-! ## After `init_page` -/

/-- The entries that the loop over the directory assigns to. -/
theorem mem_rest {k : ℕ} : k ∈ List.range' 2 (maxEntries - 2) ↔ 2 ≤ k ∧ k < maxEntries := by
  exact List.mem_range'_1

/-- The directory, away from the two entries that are assigned to last. -/
theorem pageDirectory_initPage (sym : Symbols) (t : Tables) {k : ℕ} (huser : k ≠ Proc.userPageIndex)
    (hvidmem : k ≠ userVidmemIndex) : (initPage sym t).pageDirectory k =
      if 2 ≤ k ∧ k < maxEntries then
        assign absentPDE (setEntry (setEntry t.pageDirectory 0 (vidmemPDE sym)) 1 kernelPDE k)
      else setEntry (setEntry t.pageDirectory 0 (vidmemPDE sym)) 1 kernelPDE k := by
  rw [← if_congr mem_rest rfl rfl, ← foldl_setEntry (fun _ => absentPDE) List.nodup_range']
  exact (Function.update_of_ne hvidmem ..).trans (Function.update_of_ne huser ..)

/-- An entry of one of the page tables. -/
theorem pageTables_initPage (sym : Symbols) (t : Tables) {k : ℕ} (hk : k < maxEntries) :
    (initPage sym t).vidmemPageTable k = assign (vidmemPTE k) (t.vidmemPageTable k) ∧
      (initPage sym t).userVidmemPageTable k =
        assign (userVidmemPTE k) (t.userVidmemPageTable k) := by
  have hmem : k ∈ List.range maxEntries := List.mem_range.mpr hk
  unfold initPage
  dsimp only
  rw [foldl_setEntry vidmemPTE List.nodup_range, foldl_setEntry userVidmemPTE List.nodup_range,
    if_pos hmem, if_pos hmem]
  exact ⟨rfl, rfl⟩

/-- **What `init_page` leaves.** -/
theorem entries_initPage (sym : Symbols) (t : Tables) :
    Entries sym (initPage sym t) Proc.userPageIndex Proc.vidMemAddr where
  vidmem := by
    rw [pageDirectory_initPage sym t (by decide) (by decide), if_neg (by decide), setEntry,
      Function.update_of_ne (by decide), setEntry, Function.update_self]
    exact tableEntry_assign (fits_vidmemPDE sym) rfl rfl rfl rfl
  kernel := by
    rw [pageDirectory_initPage sym t (by decide) (by decide), if_neg (by decide), setEntry,
      Function.update_self]
    exact pageEntry_assign (by decide) rfl rfl rfl rfl
  user := by
    unfold initPage
    dsimp only
    rw [setEntry, Function.update_of_ne (by decide), setEntry, Function.update_self]
    exact pageEntry_assign (by decide) rfl rfl rfl rfl
  userVidmem := by
    unfold initPage
    dsimp only
    rw [setEntry, Function.update_self]
    exact tableEntry_assign (fits_userVidmemPDE sym) rfl rfl rfl rfl
  absent := by
    intro k hk hdir
    rw [inDirectory, not_or, not_or, not_or] at hdir
    obtain ⟨hzero, hone, huser, hvidmem⟩ := hdir
    rw [pageDirectory_initPage sym t huser hvidmem, if_pos ⟨by omega, hk⟩]
    exact get_assign isLayout_pagePDE (by decide) (by decide) _
  vidmemPage := by
    intro k hk hpage
    have hon : (if isVidmemPage k then (1 : Entry) else 0) = 1 := if_pos hpage
    rw [(pageTables_initPage sym t hk).1]
    exact frameEntry_assign (fits_vidmemPTE hk) hon hon rfl
  vidmemAbsent := by
    intro k hk hpage
    have hon : (if isVidmemPage k then (1 : Entry) else 0) = 0 := if_neg hpage
    rw [(pageTables_initPage sym t hk).1]
    exact (get_assign isLayout_pte (fits_vidmemPTE hk) (by decide) _).trans hon
  userVidmemPage := by
    rw [(pageTables_initPage sym t (by decide)).2]
    exact frameEntry_assign (fits_userVidmemPTE (by decide)) rfl rfl rfl
  userVidmemAbsent := by
    intro k hk hne
    rw [(pageTables_initPage sym t hk).2]
    refine (get_assign isLayout_pte (fits_userVidmemPTE hk) (by decide) _).trans ?_
    rw [userVidmemPTE, if_neg hne]
    rfl

/-! ## What the kernel assigns later -/

/-- The addresses that a process is installed with fit. -/
structure Installable (s : Proc.Table) : Prop where
  userPage : s.userPage < 2 ^ 10
  vidmemPage : s.vidmemPage < 2 ^ 20

theorem toNat_ofNat_userPage {s : Proc.Table} (hs : Installable s) :
    (BitVec.ofNat 32 s.userPage).toNat = s.userPage := by
  have := hs.userPage
  rw [BitVec.toNat_ofNat, Nat.mod_eq_of_lt (by omega)]

theorem toNat_ofNat_vidmemPage {s : Proc.Table} (hs : Installable s) :
    (BitVec.ofNat 32 s.vidmemPage).toNat = s.vidmemPage := by
  have := hs.vidmemPage
  rw [BitVec.toNat_ofNat, Nat.mod_eq_of_lt (by omega)]

theorem fits_userPage {s : Proc.Table} (hs : Installable s) :
    Fits PagePDE.layout [(PagePDE.pageAddr, BitVec.ofNat 32 s.userPage)] := by
  have hmem : PagePDE.pageAddr ∈ PagePDE.layout := by decide
  intro a ha
  obtain rfl := List.mem_singleton.mp ha
  refine ⟨hmem, ?_⟩
  rw [toNat_ofNat_userPage hs]
  exact hs.userPage

theorem fits_vidmemPage {s : Proc.Table} (hs : Installable s) :
    Fits PTE.layout [(PTE.pageAddr, BitVec.ofNat 32 s.vidmemPage)] := by
  intro a ha
  obtain rfl := List.mem_singleton.mp ha
  refine ⟨mem_pageAddr, ?_⟩
  rw [toNat_ofNat_vidmemPage hs]
  exact hs.vidmemPage

/-- **Installing a process.**  It maps two pages elsewhere, and nothing else changes. -/
theorem Entries.install {sym : Symbols} {t : Tables} {u v : ℕ} (h : Entries sym t u v)
    {s : Proc.Table} (hs : Installable s) : Entries sym (t.install s) s.userPage s.vidmemPage := by
  have hdir : ∀ k, k ≠ Proc.userPageIndex → (t.install s).pageDirectory k = t.pageDirectory k :=
    fun k hk => Function.update_of_ne hk ..
  have htable : ∀ k, k ≠ 0 → (t.install s).userVidmemPageTable k = t.userVidmemPageTable k :=
    fun k hk => Function.update_of_ne hk ..
  refine ⟨?_, ?_, ?_, ?_, ?_, h.vidmemPage, h.vidmemAbsent, ?_, ?_⟩
  · rw [hdir 0 (by decide)]
    exact h.vidmem
  · rw [hdir 1 (by decide)]
    exact h.kernel
  · rw [Tables.install]
    dsimp only
    rw [setEntry, Function.update_self]
    exact pageEntry_assign (fits_userPage hs) h.user.present h.user.userSuper h.user.pageSize rfl
  · rw [hdir userVidmemIndex (by decide)]
    exact h.userVidmem
  · intro k hk hne
    have huser : k ≠ Proc.userPageIndex := fun hk => hne (Or.inr (Or.inr (Or.inl hk)))
    rw [hdir k huser]
    exact h.absent k hk hne
  · rw [Tables.install]
    dsimp only
    rw [setEntry, Function.update_self]
    exact frameEntry_assign (fits_vidmemPage hs) h.userVidmemPage.present h.userVidmemPage.userSuper
      rfl
  · intro k hk hne
    rw [htable k hne]
    exact h.userVidmemAbsent k hk hne

/-! ## The walk -/

section walk

variable {sym : Symbols} {t : Tables} {va : BitVec 32}

theorem translate_page {user addr : Entry} (h : PageEntry (t.pageDirectory (va.toNat / 2 ^ 22)) user addr) :
    translate sym t va =
      some (addr.toNat * 2 ^ 22 + va.toNat % 2 ^ 22, decide (user ≠ 0)) := by
  have hpresent : PagePDE.present.get (t.pageDirectory (va.toNat / 2 ^ 22)) ≠ 0 := by
    rw [h.present]
    decide
  have hsize : PagePDE.pageSize.get (t.pageDirectory (va.toNat / 2 ^ 22)) ≠ 0 := by
    rw [h.pageSize]
    decide
  rw [translate, if_neg hpresent, if_pos hsize, h.pageAddr, h.userSuper]

theorem translate_absent (h : PagePDE.present.get (t.pageDirectory (va.toNat / 2 ^ 22)) = 0) :
    translate sym t va = none := by
  rw [translate, if_pos h]

/-- The walk goes on in a page table. -/
theorem translate_table {user addr : Entry}
    (h : TableEntry (t.pageDirectory (va.toNat / 2 ^ 22)) user addr) {table : ℕ → Entry}
    (htable : tableAt sym t addr = some table) :
    translate sym t va =
      if PTE.present.get (table (va.toNat / 2 ^ 12 % maxEntries)) = 0 then none
      else
        some ((PTE.pageAddr.get (table (va.toNat / 2 ^ 12 % maxEntries))).toNat * 2 ^ 12 +
          va.toNat % 2 ^ 12,
          decide (user ≠ 0 ∧ PTE.userSuper.get (table (va.toNat / 2 ^ 12 % maxEntries)) ≠ 0)) := by
  have hpresent : PagePDE.present.get (t.pageDirectory (va.toNat / 2 ^ 22)) ≠ 0 := by
    have hone : PagePDE.present.get (t.pageDirectory (va.toNat / 2 ^ 22)) = 1 := h.present
    rw [hone]
    decide
  have hsize : ¬ PagePDE.pageSize.get (t.pageDirectory (va.toNat / 2 ^ 22)) ≠ 0 :=
    not_not.mpr h.pageSize
  rw [translate, if_neg hpresent, if_neg hsize, h.tableAddr, htable, h.userSuper]
  rfl

theorem tableAt_vidmem : tableAt sym t (sym.vidmemPageTable >>> 12) = some t.vidmemPageTable :=
  if_pos rfl

/-- The tables are at different pages. -/
theorem Symbols.shift_ne (sym : Symbols) :
    sym.userVidmemPageTable >>> 12 ≠ sym.vidmemPageTable >>> 12 := by
  intro h
  have htoNat := congrArg BitVec.toNat h
  rw [BitVec.toNat_ushiftRight, BitVec.toNat_ushiftRight, Nat.shiftRight_eq_div_pow,
    Nat.shiftRight_eq_div_pow] at htoNat
  have h₁ := sym.vidmem_aligned
  have h₂ := sym.userVidmem_aligned
  exact sym.ne (BitVec.eq_of_toNat_eq (by omega))

theorem tableAt_userVidmem :
    tableAt sym t (sym.userVidmemPageTable >>> 12) = some t.userVidmemPageTable := by
  rw [tableAt, if_neg sym.shift_ne, if_pos rfl]

end walk

/-- The map, with page `u` for the program and page `v` for its painting: the physical address of a
virtual one, and whether a program may use it. -/
def intended (u v va : ℕ) : Option (ℕ × Bool) :=
  if 0xB8000 ≤ va ∧ va < 0xBC000 then some (va, false)
  else if 0x400000 ≤ va ∧ va < 0x800000 then some (va, true)
  else if 0x8000000 ≤ va ∧ va < 0x8400000 then some (u * 2 ^ 22 + (va - 0x8000000), true)
  else if 0x8800000 ≤ va ∧ va < 0x8801000 then some (v * 2 ^ 12 + (va - 0x8800000), true)
  else none

section map

variable {sym : Symbols} {t : Tables} {u v : ℕ} {va : BitVec 32}

/-- The first 4 MB. -/
theorem translate_screens (h : Entries sym t u v) (hva : va.toNat / 2 ^ 22 = 0) :
    translate sym t va = intended u v va.toNat := by
  have hentry := h.vidmem
  rw [← hva] at hentry
  have hk : va.toNat / 2 ^ 12 % maxEntries < maxEntries := Nat.mod_lt _ (by decide)
  have hindex : va.toNat / 2 ^ 12 % maxEntries = va.toNat / 2 ^ 12 := by
    unfold maxEntries
    omega
  rw [translate_table hentry tableAt_vidmem]
  rw [hindex] at hk ⊢
  have hpage : isVidmemPage (va.toNat / 2 ^ 12) ↔ 0xB8000 ≤ va.toNat ∧ va.toNat < 0xBC000 := by
    rw [isVidmemPage, Proc.vidMemAddr, Proc.background1]
    omega
  by_cases hon : isVidmemPage (va.toNat / 2 ^ 12)
  · have hframe := h.vidmemPage _ hk hon
    have hpresent : PTE.present.get (t.vidmemPageTable (va.toNat / 2 ^ 12)) ≠ 0 := by
      rw [hframe.present]
      decide
    have haddr : (BitVec.ofNat 32 (va.toNat / 2 ^ 12)).toNat = va.toNat / 2 ^ 12 := by
      rw [BitVec.toNat_ofNat, Nat.mod_eq_of_lt (by omega)]
    rw [if_neg hpresent, hframe.pageAddr, haddr, intended, if_pos (hpage.mp hon),
      Nat.div_add_mod']
    rfl
  · have hrange := mt hpage.mpr hon
    rw [if_pos (h.vidmemAbsent _ hk hon), intended, if_neg hrange, if_neg (by omega),
      if_neg (by omega), if_neg (by omega)]

/-- The second 4 MB. -/
theorem translate_kernel (h : Entries sym t u v) (hva : va.toNat / 2 ^ 22 = 1) :
    translate sym t va = intended u v va.toNat := by
  have hentry := h.kernel
  rw [← hva] at hentry
  have haddr : (1 : Entry).toNat * 2 ^ 22 + va.toNat % 2 ^ 22 = va.toNat := by
    rw [show (1 : Entry).toNat = 1 from rfl]
    omega
  rw [translate_page hentry, haddr, intended, if_neg (by omega), if_pos (by omega)]
  rfl

/-- The 4 MB at `TASK_VIRT_PAGE_BEG`. -/
theorem translate_user (h : Entries sym t u v) (hu : u < 2 ^ 10)
    (hva : va.toNat / 2 ^ 22 = Proc.userPageIndex) :
    translate sym t va = intended u v va.toNat := by
  have hentry := h.user
  rw [← hva] at hentry
  have hindex : Proc.userPageIndex = 32 := rfl
  rw [hindex] at hva
  have haddr : (BitVec.ofNat 32 u).toNat = u := by
    rw [BitVec.toNat_ofNat, Nat.mod_eq_of_lt (by omega)]
  have hoffset : va.toNat % 2 ^ 22 = va.toNat - 0x8000000 := by omega
  rw [translate_page hentry, haddr, hoffset, intended, if_neg (by omega), if_neg (by omega),
    if_pos (by omega)]
  rfl

/-- The 4 MB at `TASK_VIDMEM_START`, of which the first page is mapped. -/
theorem translate_userVidmem (h : Entries sym t u v) (hv : v < 2 ^ 20)
    (hva : va.toNat / 2 ^ 22 = userVidmemIndex) :
    translate sym t va = intended u v va.toNat := by
  have hentry := h.userVidmem
  rw [← hva] at hentry
  have hindex : userVidmemIndex = 34 := rfl
  rw [hindex] at hva
  rw [translate_table hentry tableAt_userVidmem]
  by_cases hon : va.toNat / 2 ^ 12 % maxEntries = 0
  · have hframe := h.userVidmemPage
    rw [← hon] at hframe
    have hpresent : PTE.present.get
        (t.userVidmemPageTable (va.toNat / 2 ^ 12 % maxEntries)) ≠ 0 := by
      rw [hframe.present]
      decide
    have haddr : (BitVec.ofNat 32 v).toNat = v := by
      rw [BitVec.toNat_ofNat, Nat.mod_eq_of_lt (by omega)]
    unfold maxEntries at hon
    have hoffset : va.toNat % 2 ^ 12 = va.toNat - 0x8800000 := by omega
    rw [if_neg hpresent, hframe.userSuper, hframe.pageAddr, haddr, hoffset, intended,
      if_neg (by omega), if_neg (by omega), if_neg (by omega), if_pos (by omega)]
    rfl
  · have hk : va.toNat / 2 ^ 12 % maxEntries < maxEntries := Nat.mod_lt _ (by decide)
    rw [if_pos (h.userVidmemAbsent _ hk hon)]
    unfold maxEntries at hon
    rw [intended, if_neg (by omega), if_neg (by omega), if_neg (by omega), if_neg (by omega)]

/-- **The walk computes the map.** -/
theorem translate_eq (h : Entries sym t u v) (hu : u < 2 ^ 10) (hv : v < 2 ^ 20) (va : BitVec 32) :
    translate sym t va = intended u v va.toNat := by
  by_cases hdir : inDirectory (va.toNat / 2 ^ 22)
  · rcases hdir with hva | hva | hva | hva
    · exact translate_screens h hva
    · exact translate_kernel h hva
    · exact translate_user h hu hva
    · exact translate_userVidmem h hv hva
  · have hk : va.toNat / 2 ^ 22 < maxEntries := Nat.div_lt_of_lt_mul va.isLt
    have hindex : Proc.userPageIndex = 32 ∧ userVidmemIndex = 34 := ⟨rfl, rfl⟩
    rw [translate_absent (h.absent _ hk hdir)]
    rw [inDirectory, hindex.1, hindex.2] at hdir
    rw [intended, if_neg (by omega), if_neg (by omega), if_neg (by omega), if_neg (by omega)]

end map

end Page
end CoreOS
