import PlantOS.Mm.Pmm
import Mathlib.Data.Nat.Bitwise

/-!
# The virtual memory manager

Model of `mm/vmm.c` and of the page tables set up by `boot/boot.asm`. Physical memory is the function
that gives the 64-bit words of the page at an address. The kernel reaches a page through the identity map
of the first 4 GB, so a pointer to a table is the table's physical address, and 0 is `NULL`. A user page at
that address would hide the table; `Mm/VmmDirect.lean` says when there is none. A page-table entry is a word:
the address of a page in the bits from 12 on, flags below.

Reference: `mm/vmm.c`, `boot/boot.asm`.
-/

namespace PlantOS.Mm

/-- Physical memory and its allocator. -/
structure Vm where
  mem : ℕ → ℕ → ℕ
  pmm : Pmm

/-- `VMM_PRESENT` is set. -/
abbrev Present (e : ℕ) : Prop := e % 2 = 1

/-- `VMM_USER` is set. -/
abbrev User (e : ℕ) : Prop := e / 4 % 2 = 1

/-- `VMM_HUGE` is set. -/
abbrev Huge (e : ℕ) : Prop := e / 128 % 2 = 1

/-- `e & ~0xFFFULL`. -/
def pteAddr (e : ℕ) : ℕ := e / 4096 * 4096

/-- `e & 0xFFFULL`. -/
def pteFlags (e : ℕ) : ℕ := e % 4096

namespace Vm

/-- `pmm_alloc_page`. -/
def alloc (s : Vm) : ℕ × Vm := ((pmmAllocPage s.pmm).1, { s with pmm := (pmmAllocPage s.pmm).2 })

/-- `pmm_free_page`. -/
def free (s : Vm) (a : ℕ) : Vm := { s with pmm := pmmFreePage s.pmm a }

/-- Fill a page: `memset`, `memcpy`, or a loop over its words. -/
def setPage (s : Vm) (a : ℕ) (words : ℕ → ℕ) : Vm := { s with mem := Function.update s.mem a words }

/-- `table[index] = e`. -/
def set (s : Vm) (table index e : ℕ) : Vm :=
  s.setPage table (Function.update (s.mem table) index e)

end Vm

/-! ## Mapping pages -/

/-- The attempts of `get_or_create_table` to get a page outside of the huge page it splits: the page, or
0, and the pages set aside. -/
def splitAlloc (hugePhys : ℕ) : ℕ → List ℕ → Vm → ℕ × List ℕ × Vm
  | 0, rejected, s => (0, rejected, s)
  | n + 1, rejected, s =>
    let r := s.alloc
    if r.1 = 0 then (0, rejected, r.2)
    else if hugePhys ≤ r.1 ∧ r.1 < hugePhys + 0x200000 then
      splitAlloc hugePhys n (rejected ++ [r.1]) r.2
    else (r.1, rejected, r.2)

/-- `get_or_create_table`: the table, or 0. -/
def getOrCreateTable (s : Vm) (table index flags : ℕ) : ℕ × Vm :=
  let e := s.mem table index
  if Present e then
    if Huge e then
      let hugePhys := e / 0x200000 * 0x200000
      -- `& 0x1F` has cleared the huge bit already
      let hugeFlags := e % 32
      let r := splitAlloc hugePhys 16 [] s
      let s := r.2.1.foldl Vm.free r.2.2
      if r.1 = 0 then (0, s)
      else
        let s := s.setPage r.1 fun i => (hugePhys + i * 4096) ||| hugeFlags
        let s := s.set table index (r.1 ||| flags)
        (pteAddr (s.mem table index), s)
    else (pteAddr e, s)
  else
    let r := s.alloc
    if r.1 = 0 then (0, r.2)
    else
      let s := r.2.setPage r.1 fun _ => 0
      let s := s.set table index (r.1 ||| flags)
      (pteAddr (s.mem table index), s)

/-- `tbl_flags` of `vmm_map_page_in`. -/
def tblFlags (flags : ℕ) : ℕ := if User flags then 7 else 3

/-- `vmm_map_page_in`. -/
def vmmMapPageIn (s : Vm) (pml4 virt phys flags : ℕ) : Vm :=
  let pdpt := getOrCreateTable s pml4 (virt / 2 ^ 39 % 512) (tblFlags flags)
  if pdpt.1 = 0 then pdpt.2
  else
    let pd := getOrCreateTable pdpt.2 pdpt.1 (virt / 2 ^ 30 % 512) (tblFlags flags)
    if pd.1 = 0 then pd.2
    else
      let pt := getOrCreateTable pd.2 pd.1 (virt / 2 ^ 21 % 512) (tblFlags flags)
      if pt.1 = 0 then pt.2
      else pt.2.set pt.1 (virt / 2 ^ 12 % 512) (pteAddr phys ||| flags)

/-- `vmm_map_page`, with `cr3` the current page table. -/
def vmmMapPage (s : Vm) (cr3 virt phys flags : ℕ) : Vm := vmmMapPageIn s cr3 virt phys flags

/-- `vmm_unmap_page`, with `cr3` the current page table. -/
def vmmUnmapPage (s : Vm) (cr3 virt : ℕ) : Vm :=
  let e4 := s.mem cr3 (virt / 2 ^ 39 % 512)
  let e3 := s.mem (pteAddr e4) (virt / 2 ^ 30 % 512)
  let e2 := s.mem (pteAddr e3) (virt / 2 ^ 21 % 512)
  if ¬Present e4 then s
  else if ¬Present e3 then s
  else if ¬Present e2 then s
  else if Huge e2 then s
  else s.set (pteAddr e2) (virt / 2 ^ 12 % 512) 0

/-- `vmm_get_physical_in`. -/
def vmmGetPhysicalIn (s : Vm) (pml4 virt : ℕ) : ℕ :=
  let e4 := s.mem pml4 (virt / 2 ^ 39 % 512)
  let e3 := s.mem (pteAddr e4) (virt / 2 ^ 30 % 512)
  let e2 := s.mem (pteAddr e3) (virt / 2 ^ 21 % 512)
  let e1 := s.mem (pteAddr e2) (virt / 2 ^ 12 % 512)
  if ¬Present e4 then 0
  else if ¬Present e3 then 0
  else if Huge e3 then e3 / 2 ^ 30 * 2 ^ 30 ||| virt % 2 ^ 30
  else if ¬Present e2 then 0
  else if Huge e2 then e2 / 2 ^ 21 * 2 ^ 21 ||| virt % 2 ^ 21
  else if ¬Present e1 then 0
  else pteAddr e1 ||| virt % 4096

/-- `vmm_get_physical`, with `cr3` the current page table. -/
def vmmGetPhysical (s : Vm) (cr3 virt : ℕ) : ℕ := vmmGetPhysicalIn s cr3 virt

/-! ## Address spaces -/

/-- The cleanup of `vmm_create_address_space`: free the page directories below `i`. -/
def freePds (pdpt i : ℕ) (s : Vm) : Vm :=
  (List.range i).foldl
    (fun s j => if Present (s.mem pdpt j) then s.free (pteAddr (s.mem pdpt j)) else s) s

/-- The loop of `vmm_create_address_space` over `n` page directories from `i` on; `false` if it ran out
of memory. -/
def createPds (bootPdpt pdpt : ℕ) : ℕ → ℕ → Vm → Bool × Vm
  | 0, _, s => (true, s)
  | n + 1, i, s =>
    let e := s.mem bootPdpt i
    if Present e then
      let r := s.alloc
      if r.1 = 0 then (false, freePds pdpt i r.2)
      else
        createPds bootPdpt pdpt n (i + 1)
          ((r.2.setPage r.1 (r.2.mem (pteAddr e))).set pdpt i (r.1 ||| pteFlags e))
    else createPds bootPdpt pdpt n (i + 1) s

/-- `vmm_create_address_space`: the new PML4, or 0. `boot` is `boot_cr3`. -/
def vmmCreateAddressSpace (boot : ℕ) (s : Vm) : ℕ × Vm :=
  let pml4 := s.alloc
  if pml4.1 = 0 then (0, pml4.2)
  else
    let s := pml4.2.setPage pml4.1 fun _ => 0
    let e := s.mem boot 0
    if ¬Present e then (0, s.free pml4.1)
    else
      let pdpt := s.alloc
      if pdpt.1 = 0 then (0, pdpt.2.free pml4.1)
      else
        let s := pdpt.2.setPage pdpt.1 fun _ => 0
        let r := createPds (pteAddr e) pdpt.1 4 0 s
        if ¬r.1 then (0, (r.2.free pdpt.1).free pml4.1)
        else (pml4.1, r.2.set pml4.1 0 (pdpt.1 ||| pteFlags e))

/-- `vmm_destroy_address_space`: the pages mapped by the page table `pt` for addresses from `base` on. -/
def destroyPt (pt base : ℕ) (s : Vm) : Vm :=
  (List.range 512).foldl
    (fun s k =>
      let e := s.mem pt k
      if Present e ∧ pteAddr e ≠ base + k * 2 ^ 12 then s.free (pteAddr e) else s) s

/-- `vmm_destroy_address_space`: the page tables of the directory `pd`. -/
def destroyPd (pd base : ℕ) (s : Vm) : Vm :=
  (List.range 512).foldl
    (fun s j =>
      let e := s.mem pd j
      if Present e ∧ ¬Huge e then (destroyPt (pteAddr e) (base + j * 2 ^ 21) s).free (pteAddr e)
      else s) s

/-- `vmm_destroy_address_space`: the directories of `pdpt` for the first 4 GB. -/
def destroyPdpt (pdpt : ℕ) (s : Vm) : Vm :=
  (List.range 4).foldl
    (fun s i =>
      let e := s.mem pdpt i
      if Present e then (destroyPd (pteAddr e) (i * 2 ^ 30) s).free (pteAddr e) else s) s

/-- `vmm_destroy_address_space`. -/
def vmmDestroyAddressSpace (boot : ℕ) (s : Vm) (pml4 : ℕ) : Vm :=
  if pml4 = 0 ∨ pml4 = boot then s
  else
    let e := s.mem pml4 0
    if ¬Present e then s.free pml4
    else ((destroyPdpt (pteAddr e) s).free (pteAddr e)).free pml4

/-- `vmm_clone_address_space`: the entries of one page table from `k` on; `false` if memory ran out. -/
def clonePt (srcPt newPt base : ℕ) : ℕ → ℕ → Vm → Bool × Vm
  | 0, _, s => (true, s)
  | n + 1, k, s =>
    let e := s.mem srcPt k
    if Present e then
      if pteAddr e = base + k * 2 ^ 12 then clonePt srcPt newPt base n (k + 1) (s.set newPt k e)
      else
        let r := s.alloc
        if r.1 = 0 then (false, r.2)
        else
          clonePt srcPt newPt base n (k + 1)
            ((r.2.setPage r.1 (r.2.mem (pteAddr e))).set newPt k (r.1 ||| pteFlags e))
    else clonePt srcPt newPt base n (k + 1) s

/-- `vmm_clone_address_space`: the page tables of one directory from `j` on. -/
def clonePd (srcPd newPd base : ℕ) : ℕ → ℕ → Vm → Bool × Vm
  | 0, _, s => (true, s)
  | n + 1, j, s =>
    let e := s.mem srcPd j
    if Present e ∧ ¬Huge e then
      let r := s.alloc
      if r.1 = 0 then (false, r.2)
      else
        let t := clonePt (pteAddr e) r.1 (base + j * 2 ^ 21) 512 0 (r.2.setPage r.1 fun _ => 0)
        if t.1 then
          clonePd srcPd newPd base n (j + 1) (t.2.set newPd j (r.1 ||| pteFlags e))
        else t
    else clonePd srcPd newPd base n (j + 1) s

/-- `vmm_clone_address_space`: the directories from `i` on. -/
def clonePdpt (srcPdpt newPdpt : ℕ) : ℕ → ℕ → Vm → Bool × Vm
  | 0, _, s => (true, s)
  | n + 1, i, s =>
    let e := s.mem srcPdpt i
    if Present e then
      let t := clonePd (pteAddr e) (pteAddr (s.mem newPdpt i)) (i * 2 ^ 30) 512 0 s
      if t.1 then clonePdpt srcPdpt newPdpt n (i + 1) t.2 else t
    else clonePdpt srcPdpt newPdpt n (i + 1) s

/-- `vmm_clone_address_space`: the new PML4, or 0. -/
def vmmCloneAddressSpace (boot : ℕ) (s : Vm) (src : ℕ) : ℕ × Vm :=
  let r := vmmCreateAddressSpace boot s
  if r.1 = 0 then (0, r.2)
  else if ¬Present (r.2.mem src 0) then r
  else
    let t := clonePdpt (pteAddr (r.2.mem src 0)) (pteAddr (r.2.mem r.1 0)) 4 0 r.2
    if t.1 then (r.1, t.2) else (0, vmmDestroyAddressSpace boot t.2 r.1)

/-! ## The processor's view -/

/-- What the processor makes of an address: the physical address, and whether ring 3 may use it. -/
structure Translation where
  phys : ℕ
  user : Bool
deriving DecidableEq

/-- The translation of `virt` under the page table `pml4`. -/
def mmuTranslate (mem : ℕ → ℕ → ℕ) (pml4 virt : ℕ) : Option Translation :=
  let e4 := mem pml4 (virt / 2 ^ 39 % 512)
  let e3 := mem (pteAddr e4) (virt / 2 ^ 30 % 512)
  let e2 := mem (pteAddr e3) (virt / 2 ^ 21 % 512)
  let e1 := mem (pteAddr e2) (virt / 2 ^ 12 % 512)
  if ¬Present e4 ∨ ¬Present e3 then none
  else if Huge e3 then
    some ⟨e3 / 2 ^ 30 * 2 ^ 30 + virt % 2 ^ 30, User e4 ∧ User e3⟩
  else if ¬Present e2 then none
  else if Huge e2 then
    some ⟨e2 / 2 ^ 21 * 2 ^ 21 + virt % 2 ^ 21, User e4 ∧ User e3 ∧ User e2⟩
  else if ¬Present e1 then none
  else some ⟨pteAddr e1 + virt % 4096, User e4 ∧ User e3 ∧ User e2 ∧ User e1⟩

/-- The page tables of `boot.asm`, in six pages from `boot` on: the first 4 GB are mapped to themselves
with huge pages, present, writable and accessible from ring 3. -/
def bootTables (boot a : ℕ) : ℕ → ℕ :=
  if a = boot then fun i => if i = 0 then (boot + 4096) ||| 7 else 0
  else if a = boot + 4096 then fun i => if i < 4 then (boot + 8192 + i * 4096) ||| 7 else 0
  else fun j => ((a - (boot + 8192)) / 4096 * 512 + j) * 0x200000 ||| 0x87

end PlantOS.Mm
