import PlantOS.Common.Run
import PlantOS.Mm.Pmm
import Mathlib.Data.Nat.Count

/-!
# The page allocator from boot on

`pmm_init` reads the multiboot memory map, marks every page as used, clears the bits of the pages that lie
wholly inside an available entry, and sets those of the first megabyte, the kernel and the bitmap again.
`used_pages` is counted along in each of these loops.

`Pmm.Tracks` is the abstract view: the bits below `total_pages` are those of a set of used pages, and
`used_pages` is its size. Every loop is shown to change this set in the obvious way, whatever the overlaps
between the regions, and `pmm_alloc_lowest` follows for every sequence of calls after `pmm_init`.

The boot loader loads the boot stub at 1 MB with the kernel embedded behind it, so the kernel image is
everything from 1 MB to `_kernel_end`.

Reference: `mm/pmm.c`, `include/plantos/multiboot.h`, `linker32.ld`, `linker64.ld`.
-/

namespace PlantOS.Mm

open Word

/-! ## `pmm_init` -/

/-- `struct multiboot_mmap_entry`, without the size by which the loops find the next entry. -/
structure MmapEntry where
  addr : ℕ
  len : ℕ
  type : ℕ

/-- The part of `struct multiboot_info` that `pmm_init` reads; `mmap` has the entries in the order in which
its loops visit them. -/
structure MultibootInfo where
  flags : ℕ
  memUpper : ℕ
  mmap : List MmapEntry

/-- `entry->type == MULTIBOOT_MEMORY_AVAILABLE`. -/
def MmapEntry.available (e : MmapEntry) : Bool := e.type == 1

/-- `entry->addr + entry->len`. -/
def MmapEntry.stop (e : MmapEntry) : ℕ := wrap 64 (e.addr + e.len)

/-- `flags & MULTIBOOT_INFO_MMAP`. -/
def MultibootInfo.hasMmap (mb : MultibootInfo) : Bool := mb.flags.testBit 6

/-- `flags & MULTIBOOT_INFO_MEMORY`. -/
def MultibootInfo.hasMemory (mb : MultibootInfo) : Bool := mb.flags.testBit 0

/-- The loop that looks for the highest available address. -/
def mmapMaxAddr (mmap : List MmapEntry) : ℕ :=
  mmap.foldl (fun maxAddr e => if e.available ∧ maxAddr < e.stop then e.stop else maxAddr) 0

/-- `max_addr`, with the two fallbacks for a missing map. -/
def pmmMaxAddr (mb : MultibootInfo) : ℕ :=
  let maxAddr := if mb.hasMmap then mmapMaxAddr mb.mmap else 0
  let maxAddr := if maxAddr = 0 ∧ mb.hasMemory then wrap 32 (mb.memUpper + 1024) * 1024 else maxAddr
  if maxAddr = 0 then 128 * 1024 * 1024 else maxAddr

/-- `(addr + PAGE_SIZE - 1) & ~(PAGE_SIZE - 1)`. -/
def pageAlign (addr : ℕ) : ℕ := (addr + 4095) / 4096 * 4096

/-- `total_pages`. -/
def pmmTotalPages (mb : MultibootInfo) : ℕ := pmmMaxAddr mb / 4096

/-- `bitmap_size`. -/
def pmmBitmapSize (mb : MultibootInfo) : ℕ := (pmmTotalPages mb + 7) / 8

/-- `if (page < total_pages && bitmap_test(page)) { bitmap_clear(page); used_pages--; }`. -/
def Pmm.release (p : Pmm) (page : ℕ) : Pmm :=
  if page < p.totalPages ∧ p.bitmap page = true then p.drop page else p

/-- `if (!bitmap_test(i)) { bitmap_set(i); used_pages++; }`. -/
def Pmm.protect (p : Pmm) (page : ℕ) : Pmm := if p.bitmap page then p else p.take page

/-- The pages from `start` on that end at `stop` or below: `for (addr = start; addr + PAGE_SIZE <= end; …)`
for an aligned `start` and an `end` more than a page below `2 ^ 64`. -/
def wholePages (start stop : ℕ) : List ℕ := List.range' (start / 4096) ((stop - start) / 4096)

/-- One entry of the loop that frees the available regions. -/
def Pmm.freeRegion (p : Pmm) (e : MmapEntry) : Pmm :=
  if e.available then (wholePages (pageAlign e.addr) e.stop).foldl Pmm.release p else p

/-- `pmm_init`, for a kernel that ends at `kernelEnd`, where the memory from the bitmap's address on has the
bits `bits`. -/
def pmmInit (kernelEnd : ℕ) (bits : ℕ → Bool) (mb : MultibootInfo) : Pmm :=
  let totalPages := pmmTotalPages mb
  let bitmapSize := pmmBitmapSize mb
  let p : Pmm :=
    { bitmap := fun i => if i < 8 * bitmapSize then true else bits i
      totalPages
      usedPages := totalPages }
  let p :=
    if mb.hasMmap then mb.mmap.foldl Pmm.freeRegion p
    else (List.range' 256 (totalPages - 256)).foldl Pmm.drop p
  let p := (List.range' 0 256).foldl Pmm.protect p
  let protectedEnd := pageAlign (pageAlign kernelEnd + bitmapSize)
  (List.range' 256 (min (protectedEnd / 4096) totalPages - 256)).foldl Pmm.protect p

/-! ## The set of used pages -/

/-- The bits of the pages below `n` are those of the set `used`, and `used_pages` counts them. -/
structure Pmm.Tracks (p : Pmm) (n : ℕ) (used : ℕ → Prop) : Prop where
  total : p.totalPages = n
  bits : ∀ i < n, p.bitmap i = true ↔ used i
  counted : p.usedPages = Nat.count (fun i => p.bitmap i = true) n

theorem count_update_true {bitmap : ℕ → Bool} {n j : ℕ} (hj : j < n) (hfree : bitmap j = false) :
    Nat.count (fun i => Function.update bitmap j true i = true) n
      = Nat.count (fun i => bitmap i = true) n + 1 := by
  rw [Nat.count_eq_card_filter_range, Nat.count_eq_card_filter_range]
  have hinsert : (Finset.range n).filter (fun i => Function.update bitmap j true i = true)
      = insert j ((Finset.range n).filter fun i => bitmap i = true) := by
    ext i
    by_cases hij : i = j
    · subst hij
      simp [hj]
    · simp [hij]
  rw [hinsert, Finset.card_insert_of_notMem (by simp [hfree])]

theorem count_update_false {bitmap : ℕ → Bool} {n j : ℕ} (hj : j < n) (hused : bitmap j = true) :
    Nat.count (fun i => bitmap i = true) n
      = Nat.count (fun i => Function.update bitmap j false i = true) n + 1 := by
  rw [← count_update_true hj (Function.update_self j false bitmap), Function.update_idem, ← hused,
    Function.update_eq_self]

namespace Pmm.Tracks

variable {p : Pmm} {n : ℕ} {used : ℕ → Prop}

theorem congr {used' : ℕ → Prop} (h : p.Tracks n used) (hused : ∀ i < n, used i ↔ used' i) :
    p.Tracks n used' :=
  ⟨h.total, fun i hi => (h.bits i hi).trans (hused i hi), h.counted⟩

theorem take (h : p.Tracks n used) (hn : n < 2 ^ 64) {page : ℕ} (hpage : page < n)
    (hfree : p.bitmap page = false) : (p.take page).Tracks n fun i => used i ∨ i = page where
  total := h.total
  bits i hi := by
    by_cases hip : i = page
    · simp [Pmm.take, hip]
    · simpa [Pmm.take, hip] using h.bits i hi
  counted := by
    have hle := Nat.count_le (p := fun i => Function.update p.bitmap page true i = true) (n := n)
    have hcount := count_update_true hpage hfree
    show wrap 64 (p.usedPages + 1) = _
    rw [h.counted]
    show _ = Nat.count (fun i => Function.update p.bitmap page true i = true) n
    rw [hcount]
    exact wrap_of_lt (by push_cast; rfl) (by omega)

theorem drop (h : p.Tracks n used) (hn : n < 2 ^ 64) {page : ℕ} (hpage : page < n)
    (hused : p.bitmap page = true) : (p.drop page).Tracks n fun i => used i ∧ i ≠ page where
  total := h.total
  bits i hi := by
    by_cases hip : i = page
    · simp [Pmm.drop, hip]
    · simpa [Pmm.drop, hip] using h.bits i hi
  counted := by
    have hle := Nat.count_le (p := fun i => p.bitmap i = true) (n := n)
    have hcount := count_update_false hpage hused
    show wrap 64 (p.usedPages - 1) = Nat.count (fun i => Function.update p.bitmap page false i = true) n
    rw [h.counted]
    exact wrap_of_lt (by omega) (by omega)

theorem release (h : p.Tracks n used) (hn : n < 2 ^ 64) (page : ℕ) :
    (p.release page).Tracks n fun i => used i ∧ i ≠ page := by
  rw [Pmm.release, h.total]
  split
  · rename_i hpage
    exact h.drop hn hpage.1 hpage.2
  · rename_i hpage
    refine h.congr fun i hi => ⟨fun hu => ⟨hu, ?_⟩, And.left⟩
    rintro rfl
    exact hpage ⟨hi, (h.bits i hi).mpr hu⟩

theorem protect (h : p.Tracks n used) (hn : n < 2 ^ 64) {page : ℕ} (hpage : page < n) :
    (p.protect page).Tracks n fun i => used i ∨ i = page := by
  rw [Pmm.protect]
  split
  · rename_i hset
    refine h.congr fun i hi => ⟨.inl, fun hu => hu.elim id ?_⟩
    rintro rfl
    exact (h.bits i hi).mp hset
  · rename_i hset
    exact h.take hn hpage (Bool.eq_false_iff.mpr hset)

/-! ### The loops -/

theorem foldl_release (h : p.Tracks n used) (hn : n < 2 ^ 64) (l : List ℕ) :
    (l.foldl Pmm.release p).Tracks n fun i => used i ∧ i ∉ l := by
  induction l generalizing p used with
  | nil => exact h.congr fun i _ => by simp
  | cons page l ih =>
    refine (ih (h.release hn page)).congr fun i _ => ?_
    simp only [List.mem_cons, not_or, and_assoc]

theorem foldl_protect (h : p.Tracks n used) (hn : n < 2 ^ 64) {l : List ℕ} (hl : ∀ i ∈ l, i < n) :
    (l.foldl Pmm.protect p).Tracks n fun i => used i ∨ i ∈ l := by
  induction l generalizing p used with
  | nil => exact h.congr fun i _ => by simp
  | cons page l ih =>
    refine (ih (h.protect hn (hl page List.mem_cons_self))
      fun i hi => hl i (List.mem_cons_of_mem page hi)).congr fun i _ => ?_
    simp only [List.mem_cons, or_assoc]

end Pmm.Tracks

/-! ## The pages that may be handed out -/

/-- Page `i` has a byte in `[lo, hi)`. -/
def PageOverlaps (i lo hi : ℕ) : Prop := i * 4096 < hi ∧ lo < (i + 1) * 4096

/-- Page `i` lies wholly inside an available entry. -/
def MultibootInfo.Covers (mb : MultibootInfo) (i : ℕ) : Prop :=
  ∃ e ∈ mb.mmap, e.available ∧ e.addr ≤ i * 4096 ∧ (i + 1) * 4096 ≤ e.addr + e.len

/-- Page `i` lies wholly inside an available entry and outside the first megabyte, the kernel image and the
bitmap. -/
structure MultibootInfo.Usable (mb : MultibootInfo) (kernelEnd i : ℕ) : Prop where
  covered : mb.Covers i
  low : ¬PageOverlaps i 0 0x100000
  kernel : ¬PageOverlaps i 0x100000 kernelEnd
  bitmap : ¬PageOverlaps i (pageAlign kernelEnd) (pageAlign kernelEnd + pmmBitmapSize mb)

/-- A memory map that `pmm_init` is given: all entries end at or below `2 ^ 52`, and an available one ends
beyond the kernel and the bitmap. The kernel is linked at 2 MB. -/
structure BootMap (kernelEnd : ℕ) (mb : MultibootInfo) : Prop where
  linked : 0x200000 ≤ kernelEnd
  hasMmap : mb.hasMmap
  small : ∀ e ∈ mb.mmap, e.addr + e.len ≤ 2 ^ 52
  beyond : ∃ e ∈ mb.mmap, e.available ∧ pageAlign kernelEnd + pmmBitmapSize mb < e.addr + e.len

theorem le_pageAlign (addr : ℕ) : addr ≤ pageAlign addr := by
  simp only [pageAlign]
  omega

theorem stop_eq {e : MmapEntry} (h : e.addr + e.len ≤ 2 ^ 52) : e.stop = e.addr + e.len :=
  wrap_of_lt (by push_cast; rfl) (by omega)

/-- The loop finds the highest end of an available entry. -/
theorem foldl_maxAddr (mmap : List MmapEntry) (m : ℕ) :
    let r := mmap.foldl (fun maxAddr e => if e.available ∧ maxAddr < e.stop then e.stop else maxAddr) m
    m ≤ r ∧ (∀ e ∈ mmap, e.available → e.stop ≤ r) ∧
      (r = m ∨ ∃ e ∈ mmap, e.available ∧ r = e.stop) := by
  intro r
  simp only [r]
  clear r
  induction mmap generalizing m with
  | nil => exact ⟨le_refl _, by simp, .inl rfl⟩
  | cons e mmap ih =>
    rw [List.foldl_cons]
    by_cases h : e.available ∧ m < e.stop
    · rw [if_pos h]
      obtain ⟨hle, hall, hex⟩ := ih e.stop
      refine ⟨h.2.le.trans hle, fun e' he' ha => ?_, ?_⟩
      · rcases List.mem_cons.mp he' with rfl | he'
        · exact hle
        · exact hall e' he' ha
      · rcases hex with hex | ⟨e', he', hex⟩
        · exact .inr ⟨e, List.mem_cons_self, h.1, hex⟩
        · exact .inr ⟨e', List.mem_cons_of_mem e he', hex⟩
    · rw [if_neg h]
      obtain ⟨hle, hall, hex⟩ := ih m
      refine ⟨hle, fun e' he' ha => ?_, ?_⟩
      · rcases List.mem_cons.mp he' with rfl | he'
        · exact (not_lt.mp fun hlt => h ⟨ha, hlt⟩).trans hle
        · exact hall e' he' ha
      · rcases hex with hex | ⟨e', he', hex⟩
        · exact .inl hex
        · exact .inr ⟨e', List.mem_cons_of_mem e he', hex⟩

namespace BootMap

variable {kernelEnd : ℕ} {mb : MultibootInfo}

/-- `max_addr` is the highest end of an available entry. -/
theorem maxAddr (h : BootMap kernelEnd mb) :
    (∀ e ∈ mb.mmap, e.available → e.addr + e.len ≤ pmmMaxAddr mb) ∧ pmmMaxAddr mb ≤ 2 ^ 52 := by
  obtain ⟨-, hall, hex⟩ := foldl_maxAddr mb.mmap 0
  obtain ⟨e, he, ha, hbeyond⟩ := h.beyond
  have hpos : mmapMaxAddr mb.mmap ≠ 0 := by
    have := hall e he ha
    rw [stop_eq (h.small e he)] at this
    intro hzero
    rw [mmapMaxAddr] at hzero
    omega
  have hmax : pmmMaxAddr mb = mmapMaxAddr mb.mmap := by
    simp [pmmMaxAddr, h.hasMmap, hpos]
  rw [hmax]
  refine ⟨fun e he ha => ?_, ?_⟩
  · rw [← stop_eq (h.small e he)]
    exact hall e he ha
  · rcases hex with hex | ⟨e', he', -, hex⟩
    · exact absurd hex hpos
    · rw [mmapMaxAddr, hex, stop_eq (h.small e' he')]
      exact h.small e' he'

theorem total_lt (h : BootMap kernelEnd mb) : pmmTotalPages mb < 2 ^ 64 := by
  have := h.maxAddr.2
  simp only [pmmTotalPages]
  omega

/-- Kernel and bitmap lie below `max_addr`, so the first megabyte does. -/
theorem protected_le (h : BootMap kernelEnd mb) : 256 ≤ pmmTotalPages mb := by
  obtain ⟨e, he, ha, hbeyond⟩ := h.beyond
  have hmax := h.maxAddr.1 e he ha
  have := h.linked
  have := le_pageAlign kernelEnd
  simp only [pmmTotalPages]
  omega

theorem lt_total_of_covers (h : BootMap kernelEnd mb) {i : ℕ} (hi : mb.Covers i) :
    i < pmmTotalPages mb := by
  obtain ⟨e, he, ha, -, hend⟩ := hi
  have := h.maxAddr.1 e he ha
  simp only [pmmTotalPages]
  omega

/-- The pages that the loop over one entry visits are those wholly inside it. -/
theorem mem_wholePages (h : BootMap kernelEnd mb) {e : MmapEntry} (he : e ∈ mb.mmap) {i : ℕ} :
    i ∈ wholePages (pageAlign e.addr) e.stop ↔
      e.addr ≤ i * 4096 ∧ (i + 1) * 4096 ≤ e.addr + e.len := by
  rw [stop_eq (h.small e he)]
  simp only [wholePages, pageAlign, List.mem_range'_1]
  omega

/-- The protected pages are those of the first megabyte, of the kernel image and of the bitmap. -/
theorem lt_protectedEnd_iff {i : ℕ} :
    (i < 256 ∨ i < pageAlign (pageAlign kernelEnd + pmmBitmapSize mb) / 4096) ↔
      (PageOverlaps i 0 0x100000 ∨ PageOverlaps i 0x100000 kernelEnd ∨
        PageOverlaps i (pageAlign kernelEnd) (pageAlign kernelEnd + pmmBitmapSize mb)) := by
  simp only [PageOverlaps, pageAlign]
  omega

theorem usable_iff {i : ℕ} : mb.Usable kernelEnd i ↔ mb.Covers i ∧
    ¬(i < 256 ∨ i < pageAlign (pageAlign kernelEnd + pmmBitmapSize mb) / 4096) := by
  rw [lt_protectedEnd_iff, not_or, not_or]
  exact ⟨fun h => ⟨h.covered, h.low, h.kernel, h.bitmap⟩, fun h => ⟨h.1, h.2.1, h.2.2.1, h.2.2.2⟩⟩

/-- Freeing the available regions leaves the pages in use that no entry covers. -/
theorem foldl_freeRegion (h : BootMap kernelEnd mb) {p : Pmm} {n : ℕ} {used : ℕ → Prop}
    (hp : p.Tracks n used) (hn : n < 2 ^ 64) {l : List MmapEntry} (hl : ∀ e ∈ l, e ∈ mb.mmap) :
    (l.foldl Pmm.freeRegion p).Tracks n fun i => used i ∧
      ¬∃ e ∈ l, e.available ∧ e.addr ≤ i * 4096 ∧ (i + 1) * 4096 ≤ e.addr + e.len := by
  induction l generalizing p used with
  | nil => exact hp.congr fun i _ => by simp
  | cons e l ih =>
    have hl' : ∀ e' ∈ l, e' ∈ mb.mmap := fun e' he' => hl e' (List.mem_cons_of_mem e he')
    have hregion : (p.freeRegion e).Tracks n fun i => used i ∧
        ¬(e.available ∧ e.addr ≤ i * 4096 ∧ (i + 1) * 4096 ≤ e.addr + e.len) := by
      rw [Pmm.freeRegion]
      split
      · rename_i ha
        refine (hp.foldl_release hn _).congr fun i _ => ?_
        rw [h.mem_wholePages (hl e List.mem_cons_self)]
        simp [ha]
      · rename_i ha
        exact hp.congr fun i _ => by simp [ha]
    refine (ih hregion hl').congr fun i _ => ?_
    simp only [List.exists_mem_cons_iff, not_or, and_assoc]

/-- After `pmm_init` exactly the usable pages are free. -/
theorem init (h : BootMap kernelEnd mb) (bits : ℕ → Bool) :
    (pmmInit kernelEnd bits mb).Tracks (pmmTotalPages mb) fun i => ¬mb.Usable kernelEnd i := by
  have hn := h.total_lt
  have hlow := h.protected_le
  have hset : ∀ i < pmmTotalPages mb, i < 8 * pmmBitmapSize mb := fun i hi => by
    simp only [pmmBitmapSize]
    omega
  simp only [pmmInit, h.hasMmap, if_true]
  set n := pmmTotalPages mb
  -- `memset` and the three loops in their order
  have h₀ : Pmm.Tracks ⟨fun i => if i < 8 * pmmBitmapSize mb then true else bits i, n, n⟩ n
      fun _ => True := by
    refine ⟨rfl, fun i hi => by simp [hset i hi], ?_⟩
    refine ((Nat.count_iff_forall).mpr fun i hi => ?_).symm
    simp [hset i hi]
  have h₁ := h.foldl_freeRegion h₀ hn fun e he => he
  have h₂ := h₁.foldl_protect hn (l := List.range' 0 256) fun i hi => by
    simp only [List.mem_range'_1] at hi
    omega
  have h₃ := h₂.foldl_protect hn (l := List.range' 256
      (min (pageAlign (pageAlign kernelEnd + pmmBitmapSize mb) / 4096) n - 256)) fun i hi => by
    simp only [List.mem_range'_1] at hi
    omega
  refine h₃.congr fun i hi => ?_
  rw [usable_iff, not_and_or, not_not, true_and, or_assoc]
  refine or_congr Iff.rfl ?_
  simp only [List.mem_range'_1]
  omega

end BootMap

/-! ## Runs -/

/-- The calls made on the allocator. -/
inductive PmmOp where
  | alloc
  | markUsed (addr : ℕ)
  | free (addr : ℕ)

/-- The allocator, with the addresses that `pmm_alloc_page` has returned so far (`NULL` is none), and the
pages that have been handed out or marked used since the start or since they were last freed. -/
structure PmmSys where
  pmm : Pmm
  returned : List ℕ
  busy : ℕ → Bool

/-- One call. -/
def pmmSysStep (s : PmmSys) : PmmOp → PmmSys
  | .alloc =>
    let (addr, pmm) := pmmAllocPage s.pmm
    if addr = 0 then { s with pmm }
    else { pmm, returned := addr :: s.returned, busy := Function.update s.busy (addr / 4096) true }
  | .markUsed addr =>
    { s with pmm := pmmMarkPageUsed s.pmm addr, busy := Function.update s.busy (addr / 4096) true }
  | .free addr =>
    { s with pmm := pmmFreePage s.pmm addr, busy := Function.update s.busy (addr / 4096) false }

/-- Only addresses that `pmm_alloc_page` has returned are freed. -/
def PmmSys.Allowed (s : PmmSys) : PmmOp → Prop
  | .free addr => addr ∈ s.returned
  | .alloc | .markUsed _ => True

/-- The state after `pmm_init`. -/
def pmmSysInit (kernelEnd : ℕ) (bits : ℕ → Bool) (mb : MultibootInfo) : PmmSys :=
  { pmm := pmmInit kernelEnd bits mb, returned := [], busy := fun _ => false }

/-- The pages that `pmm_alloc_page` may return: usable, and not handed out or marked used. -/
def PmmSys.free (s : PmmSys) (kernelEnd : ℕ) (mb : MultibootInfo) : Set ℕ :=
  { i | mb.Usable kernelEnd i ∧ s.busy i = false }

/-- The bitmap has the pages that are not free, and only usable pages have been returned. -/
structure PmmSys.Inv (kernelEnd : ℕ) (mb : MultibootInfo) (s : PmmSys) : Prop where
  tracks : s.pmm.Tracks (pmmTotalPages mb) fun i => i ∉ s.free kernelEnd mb
  returned : ∀ addr ∈ s.returned, mb.Usable kernelEnd (addr / 4096)

namespace PmmSys.Inv

variable {kernelEnd : ℕ} {mb : MultibootInfo} {s : PmmSys}

/-- What `pmm_alloc_page` does in terms of the free pages. -/
theorem alloc_cases (h : s.Inv kernelEnd mb) (hmap : BootMap kernelEnd mb) :
    (∃ i, IsLeast (s.free kernelEnd mb) i ∧ pmmAllocPage s.pmm = (i * 4096, s.pmm.take i) ∧
      i < pmmTotalPages mb ∧ s.pmm.bitmap i = false) ∨
    (s.free kernelEnd mb = ∅ ∧ pmmAllocPage s.pmm = (0, s.pmm)) := by
  have hfree : ∀ i, i ∈ s.free kernelEnd mb ↔ i < pmmTotalPages mb ∧ s.pmm.bitmap i = false := fun i => by
    refine ⟨fun hi => ?_, fun ⟨hlt, hbit⟩ => ?_⟩
    · have hlt := hmap.lt_total_of_covers hi.1.covered
      exact ⟨hlt, Bool.eq_false_iff.mpr fun hbit => (h.tracks.bits i hlt).mp hbit hi⟩
    · by_contra hi
      rw [(h.tracks.bits i hlt).mpr hi] at hbit
      cases hbit
  rw [pmmAllocPage, h.tracks.total]
  cases hfirst : firstFree s.pmm.bitmap (pmmTotalPages mb) 0 with
  | some i =>
    obtain ⟨hbit, hlt, hbefore⟩ := firstFree_spec hfirst
    rw [Nat.zero_add] at hlt
    refine .inl ⟨i, ⟨(hfree i).mpr ⟨hlt, hbit⟩, fun j hj => ?_⟩, rfl, hlt, hbit⟩
    by_contra hji
    have hused := hbefore j (Nat.zero_le j) (not_le.mp hji)
    rw [((hfree j).mp hj).2] at hused
    cases hused
  | none =>
    refine .inr ⟨Set.eq_empty_of_forall_notMem fun i hi => ?_, rfl⟩
    obtain ⟨hlt, hbit⟩ := (hfree i).mp hi
    rw [bitmap_of_firstFree_eq_none hfirst (Nat.zero_le i) (by omega)] at hbit
    cases hbit

/-- No free page is page 0. -/
theorem pos_of_usable {i : ℕ} (hi : mb.Usable kernelEnd i) : 0 < i := by
  by_contra hzero
  exact hi.low ⟨by omega, by omega⟩

theorem alloc (h : s.Inv kernelEnd mb) (hmap : BootMap kernelEnd mb) :
    (pmmSysStep s .alloc).Inv kernelEnd mb := by
  rcases h.alloc_cases hmap with ⟨i, hi, halloc, hlt, hbit⟩ | ⟨-, halloc⟩
  · have hpos : i * 4096 ≠ 0 := by
      have := pos_of_usable hi.1.1
      omega
    have hdiv : i * 4096 / 4096 = i := Nat.mul_div_cancel i (by decide)
    simp only [pmmSysStep, halloc, if_neg hpos, hdiv]
    refine ⟨(h.tracks.take hmap.total_lt hlt hbit).congr fun j _ => ?_, fun addr haddr => ?_⟩
    · by_cases hji : j = i
      · simp [free, hji]
      · simp [free, hji]
    · rcases List.mem_cons.mp haddr with rfl | haddr
      · rw [hdiv]
        exact hi.1.1
      · exact h.returned addr haddr
  · simp only [pmmSysStep, halloc, if_true]
    exact ⟨h.tracks, h.returned⟩

theorem markUsed (h : s.Inv kernelEnd mb) (hmap : BootMap kernelEnd mb) (addr : ℕ) :
    (pmmSysStep s (.markUsed addr)).Inv kernelEnd mb := by
  refine ⟨?_, h.returned⟩
  have hset : ∀ i, i ∉ PmmSys.free (pmmSysStep s (.markUsed addr)) kernelEnd mb ↔
      i ∉ s.free kernelEnd mb ∨ i = addr / 4096 := fun i => by
    by_cases hi : i = addr / 4096
    · simp [free, pmmSysStep, hi]
    · simp [free, pmmSysStep, hi]
  show (pmmMarkPageUsed s.pmm addr).Tracks _ _
  simp only [pmmMarkPageUsed, h.tracks.total]
  split
  · rename_i hpage
    exact (h.tracks.take hmap.total_lt hpage.1 hpage.2).congr fun i _ => (hset i).symm
  · rename_i hpage
    refine h.tracks.congr fun i hi => ?_
    rw [hset, iff_self_or]
    rintro rfl
    refine (h.tracks.bits _ hi).mp (by_contra fun hbit => hpage ⟨hi, ?_⟩)
    exact Bool.eq_false_iff.mpr hbit

theorem free (h : s.Inv kernelEnd mb) (hmap : BootMap kernelEnd mb) {addr : ℕ}
    (haddr : addr ∈ s.returned) : (pmmSysStep s (.free addr)).Inv kernelEnd mb := by
  refine ⟨?_, h.returned⟩
  have husable := h.returned addr haddr
  refine (h.tracks.release hmap.total_lt (addr / 4096)).congr fun i _ => ?_
  by_cases hi : i = addr / 4096
  · simp [PmmSys.free, pmmSysStep, hi, husable]
  · simp [PmmSys.free, pmmSysStep, hi]

/-- Step: an allocation returns a free page, and only pages that were returned are released. -/
theorem step (h : s.Inv kernelEnd mb) (hmap : BootMap kernelEnd mb) {op : PmmOp} (hop : s.Allowed op) :
    (pmmSysStep s op).Inv kernelEnd mb := by
  cases op with
  | alloc => exact h.alloc hmap
  | markUsed addr => exact h.markUsed hmap addr
  | free addr => exact h.free hmap hop

/-- After `pmm_init` the free pages are the usable ones. -/
theorem of_tracks {p : Pmm} (h : p.Tracks (pmmTotalPages mb) fun i => ¬mb.Usable kernelEnd i) :
    PmmSys.Inv kernelEnd mb ⟨p, [], fun _ => false⟩ where
  tracks := h.congr fun i _ => by simp [PmmSys.free]
  returned _ h := by cases h

/-- The counter and the next result of `pmm_alloc_page`. -/
theorem spec (h : s.Inv kernelEnd mb) (hmap : BootMap kernelEnd mb) :
    s.pmm.usedPages = Nat.count (fun i => s.pmm.bitmap i = true) s.pmm.totalPages ∧
    (∀ i, IsLeast (s.free kernelEnd mb) i → (pmmAllocPage s.pmm).1 = i * 4096) ∧
    ((pmmAllocPage s.pmm).1 = 0 ↔ s.free kernelEnd mb = ∅) := by
  refine ⟨by rw [h.tracks.total]; exact h.tracks.counted, ?_⟩
  rcases h.alloc_cases hmap with ⟨j, hj, halloc, -⟩ | ⟨hempty, halloc⟩
  · have hpos := pos_of_usable hj.1.1
    rw [halloc]
    refine ⟨fun i hi => by rw [hj.unique hi], iff_of_false (by simpa using hpos.ne') fun hempty => ?_⟩
    rw [hempty] at hj
    exact absurd hj.1 (Set.notMem_empty j)
  · rw [halloc, hempty]
    exact ⟨fun i hi => absurd hi.1 (Set.notMem_empty i), iff_of_true rfl rfl⟩

end PmmSys.Inv

/-- After `pmm_init` and any calls that free only what was handed out: `used_pages` is the number of set bits;
`pmm_alloc_page` returns the lowest free page, and `NULL` exactly if there is none. -/
theorem pmm_alloc_lowest {kernelEnd : ℕ} {mb : MultibootInfo} (hmap : BootMap kernelEnd mb)
    (bits : ℕ → Bool) {ops : List PmmOp}
    (hops : Run.Admits pmmSysStep PmmSys.Allowed (pmmSysInit kernelEnd bits mb) ops) :
    let s := Run.run pmmSysStep (pmmSysInit kernelEnd bits mb) ops
    s.pmm.usedPages = Nat.count (fun i => s.pmm.bitmap i = true) s.pmm.totalPages ∧
    (∀ i, IsLeast (s.free kernelEnd mb) i → (pmmAllocPage s.pmm).1 = i * 4096) ∧
    ((pmmAllocPage s.pmm).1 = 0 ↔ s.free kernelEnd mb = ∅) := by
  have hstep : ∀ s op, PmmSys.Inv kernelEnd mb s → s.Allowed op → (pmmSysStep s op).Inv kernelEnd mb :=
    fun s op h hop => h.step hmap hop
  have hinit : (pmmSysInit kernelEnd bits mb).Inv kernelEnd mb := .of_tracks (hmap.init bits)
  exact (Run.run_invariant_of_admits hstep hinit hops).spec hmap

/-- Two available regions and a reserved one. -/
def smallMap : MultibootInfo :=
  { flags := 0x40
    memUpper := 0
    mmap := [⟨0, 0x9FC00, 1⟩, ⟨0x100000, 0x103000, 1⟩, ⟨0xF0000, 0x10000, 2⟩] }

/-- Memory up to 2 MB + 12 KB and a kernel that ends at 2 MB: once the page behind the bitmap is marked used,
the next one is the lowest free page. -/
theorem pmm_alloc_lowest_second : BootMap 0x200000 smallMap ∧
    (pmmAllocPage (Run.run pmmSysStep (pmmSysInit 0x200000 (fun _ => false) smallMap)
      [.markUsed 0x201000]).pmm).1 = 514 * 4096 := by
  have hsize : pmmBitmapSize smallMap = 65 := by decide +kernel
  have hmem : (⟨0x100000, 0x103000, 1⟩ : MmapEntry) ∈ smallMap.mmap :=
    List.mem_cons_of_mem _ List.mem_cons_self
  have hmap : BootMap 0x200000 smallMap := by
    refine ⟨by decide, by decide, by decide, _, hmem, rfl, ?_⟩
    rw [hsize]
    decide
  refine ⟨hmap, (@pmm_alloc_lowest _ _ hmap (fun _ => false) [.markUsed 0x201000]
    ⟨trivial, trivial⟩).2.1 514 ?_⟩
  refine ⟨⟨BootMap.usable_iff.mpr ⟨⟨_, hmem, rfl, by decide, by decide⟩, ?_⟩, rfl⟩, fun i hi => ?_⟩
  · rw [hsize]
    decide
  · have hnot := (BootMap.usable_iff.mp hi.1).2
    have hne : i ≠ 513 := by
      rintro rfl
      exact absurd hi.2 (by decide)
    rw [hsize] at hnot
    simp only [pageAlign] at hnot
    omega

end PlantOS.Mm
