import PlantOS.Fs.ElfLoader

/-!
# The accesses of the ELF loader

`elf_load` takes offsets and sizes from the file as they are. `ElfFile.accesses` are the accesses that it
makes through them: the reads of the file and the uses of `page_phys`. They are inside of the file and of the
array exactly if the program headers and the contents of the segments are inside of the file, and the contents
are inside of the pages from the first to the last loadable segment.

Reference: `fs/elf_loader.c`.
-/

namespace PlantOS.Fs

open Word

/-- A read of `n` bytes of the buffer from `off` on, or a use of `page_phys[idx]`. -/
inductive ElfAccess
  | read (off n : ℕ)
  | page (idx : ℕ)

/-- The access is inside of the file or of the array. -/
def ElfAccess.Inside (file : ElfFile) : ElfAccess → Prop
  | .read off n => ∀ k < n, wrap 64 (off + k) < file.size
  | .page idx => idx < file.totalPages

namespace ElfFile

/-- The offset of the program header `i`. -/
def phdrOff (file : ElfFile) (i : ℕ) : ℕ :=
  wrap 64 (file.read 8 32 + toInt32 (i * file.read 2 54))

/-- The accesses of the first loop to the header `i`: `p_type`, `p_memsz` and `p_vaddr`. -/
def scanAccesses (file : ElfFile) (i : ℕ) : List ElfAccess :=
  let ph := file.phdr i
  .read (file.phdrOff i) 4 ::
    if ph.type ≠ 1 then [] else .read (file.phdrOff i + 40) 8 ::
      if ph.memsz = 0 then [] else [.read (file.phdrOff i + 16) 8]

/-- The accesses of the second loop for the header `i`: `p_type` and `p_filesz`, and for each byte `p_vaddr`,
the page, `p_offset` and the byte. -/
def copyAccesses (file : ElfFile) (i : ℕ) : List ElfAccess :=
  let ph := file.phdr i
  .read (file.phdrOff i) 4 ::
    if ph.type ≠ 1 then [] else .read (file.phdrOff i + 32) 8 ::
      (List.range ph.filesz).flatMap fun off =>
        [.read (file.phdrOff i + 16) 8, .page (file.pageIdx ph off), .read (file.phdrOff i + 8) 8,
          .read (ph.offset + off) 1]

/-- The accesses of `elf_load` for a file that passes the checks of the header. `pagesOk` says whether there
is memory for the array and for the pages. -/
def accesses (file : ElfFile) (pagesOk : Bool) : List ElfAccess :=
  (List.range file.phnum).flatMap file.scanAccesses ++
    if file.pageRange.1 < file.pageRange.2 ∧ pagesOk then (List.range file.phnum).flatMap file.copyAccesses
    else []

/-- The first page of a segment. -/
def segStart (file : ElfFile) (i : ℕ) : ℕ := (file.phdr i).vaddr / 4096 * 4096

/-- The end of the last page of a segment, in 64 bits. -/
def segEnd (file : ElfFile) (i : ℕ) : ℕ :=
  wrap 64 ((file.phdr i).vaddr + (file.phdr i).memsz + 0xFFF) / 4096 * 4096

/-- The header `i` is that of a segment that takes pages. -/
def Loaded (file : ElfFile) (i : ℕ) : Prop :=
  i < file.phnum ∧ (file.phdr i).type = 1 ∧ (file.phdr i).memsz ≠ 0

/-- The headers lie in the file, and, if pages are allocated, the contents of the segments lie in the file and
in the pages from the lowest segment to the end of the highest one. -/
structure Contained (file : ElfFile) (pagesOk : Bool) : Prop where
  header : ∀ i < file.phnum, file.phdrOff i + 4 ≤ file.size
  load : ∀ i < file.phnum, (file.phdr i).type = 1 → file.phdrOff i + 48 ≤ file.size
  content : pagesOk → (∃ j k, file.Loaded j ∧ file.Loaded k ∧ file.segStart j < file.segEnd k) →
    ∀ i < file.phnum, (file.phdr i).type = 1 → (file.phdr i).filesz ≠ 0 →
      (file.phdr i).offset + (file.phdr i).filesz ≤ file.size ∧
        (∃ j, file.Loaded j ∧ file.segStart j ≤ (file.phdr i).vaddr) ∧
        ∃ k, file.Loaded k ∧ (file.phdr i).vaddr + (file.phdr i).filesz ≤ file.segEnd k

/-! ## The page range -/

theorem scanPhdr_iff (file : ElfFile) (range : ℕ × ℕ) (i x : ℕ) :
    ((scanPhdr range (file.phdr i)).1 ≤ x ↔
      range.1 ≤ x ∨ ((file.phdr i).type = 1 ∧ (file.phdr i).memsz ≠ 0) ∧ file.segStart i ≤ x) ∧
    (x ≤ (scanPhdr range (file.phdr i)).2 ↔
      x ≤ range.2 ∨ ((file.phdr i).type = 1 ∧ (file.phdr i).memsz ≠ 0) ∧ x ≤ file.segEnd i) := by
  rw [scanPhdr]
  split_ifs with h
  · have hnot : ¬((file.phdr i).type = 1 ∧ (file.phdr i).memsz ≠ 0) := fun hl =>
      h.elim (absurd hl.1) hl.2
    simp only [hnot, false_and, or_false, and_self]
  · have hload : (file.phdr i).type = 1 ∧ (file.phdr i).memsz ≠ 0 :=
      ⟨not_not.1 (not_or.1 h).1, (not_or.1 h).2⟩
    rw [and_iff_right hload, and_iff_right hload]
    dsimp only
    rw [← segStart, ← segEnd]
    constructor <;> split_ifs <;> omega

/-- The range of some headers, from a range found before. -/
theorem foldl_scanPhdr (file : ElfFile) (l : List ℕ) : ∀ (range : ℕ × ℕ) (x : ℕ),
    ((l.foldl (fun range i => scanPhdr range (file.phdr i)) range).1 ≤ x ↔ range.1 ≤ x ∨
      ∃ j ∈ l, ((file.phdr j).type = 1 ∧ (file.phdr j).memsz ≠ 0) ∧ file.segStart j ≤ x) ∧
    (x ≤ (l.foldl (fun range i => scanPhdr range (file.phdr i)) range).2 ↔ x ≤ range.2 ∨
      ∃ k ∈ l, ((file.phdr k).type = 1 ∧ (file.phdr k).memsz ≠ 0) ∧ x ≤ file.segEnd k) := by
  induction l with
  | nil => simp
  | cons i l ih =>
    intro range x
    rw [List.foldl_cons, (ih _ x).1, (ih _ x).2, (scanPhdr_iff file range i x).1,
      (scanPhdr_iff file range i x).2]
    simp only [List.mem_cons, exists_eq_or_imp, or_assoc, and_self]

/-- The range starts at the lowest page of a loaded segment. -/
theorem pageRange_fst_le_iff {file : ElfFile} {x : ℕ} :
    file.pageRange.1 ≤ x ↔ 2 ^ 64 - 1 ≤ x ∨ ∃ j, file.Loaded j ∧ file.segStart j ≤ x := by
  rw [pageRange, (foldl_scanPhdr file _ _ x).1]
  simp only [List.mem_range, Loaded, and_assoc]

/-- The range ends at the highest end of a loaded segment. -/
theorem le_pageRange_snd_iff {file : ElfFile} {x : ℕ} (hx : 0 < x) :
    x ≤ file.pageRange.2 ↔ ∃ k, file.Loaded k ∧ x ≤ file.segEnd k := by
  rw [pageRange, (foldl_scanPhdr file _ _ x).2]
  simp only [List.mem_range, Loaded, and_assoc, Nat.le_zero, hx.ne', false_or]

theorem segEnd_lt (file : ElfFile) (k : ℕ) : file.segEnd k + 4096 ≤ 2 ^ 64 := by
  have := wrap_lt 64 ((file.phdr k).vaddr + (file.phdr k).memsz + 0xFFF)
  rw [segEnd]
  omega

/-- If there is a page to load, the range is from the start of a segment to the end of one. -/
theorem pageRange_spec {file : ElfFile} (h : file.pageRange.1 < file.pageRange.2) :
    (∃ j, file.Loaded j ∧ file.pageRange.1 = file.segStart j) ∧
      ∃ k, file.Loaded k ∧ file.pageRange.2 = file.segEnd k := by
  obtain ⟨k, hk, hend⟩ := (le_pageRange_snd_iff (by omega)).1 (le_refl file.pageRange.2)
  have hlt := file.segEnd_lt k
  obtain htop | ⟨j, hj, hstart⟩ := pageRange_fst_le_iff.1 (le_refl file.pageRange.1)
  · omega
  refine ⟨⟨j, hj, (pageRange_fst_le_iff.2 (.inr ⟨j, hj, le_rfl⟩)).antisymm hstart⟩, k, hk, ?_⟩
  exact hend.antisymm ((le_pageRange_snd_iff (by omega)).2 ⟨k, hk, le_rfl⟩)

/-! ## Accesses inside of the file -/

/-- Bytes that follow each other, counted in 64 bits, are below a bound. -/
theorem forall_wrap_lt_iff {off n bound : ℕ} (hoff : off < 2 ^ 64) (hn : 0 < n) (hbound : bound < 2 ^ 64) :
    (∀ k < n, wrap 64 (off + k) < bound) ↔ off + n ≤ bound := by
  have hwrap : ∀ k, off + k < 2 ^ 64 → wrap 64 (off + k) = off + k := fun k hk =>
    wrap_of_lt (Nat.cast_add _ _).symm hk
  constructor
  · intro h
    have h0 := h 0 hn
    rw [hwrap 0 hoff] at h0
    by_contra hle
    have hk := h (bound - off) (by omega)
    rw [hwrap _ (by omega)] at hk
    omega
  · intro h k hk
    rw [hwrap k (by omega)]
    omega

theorem read_lt (file : ElfFile) (n off : ℕ) : file.read n off < 256 ^ n := by
  induction n generalizing off with
  | zero => exact Nat.one_pos
  | succ n ih =>
    have hbyte := (file.byte off).toNat_lt
    have hrest := ih (wrap 64 (off + 1))
    rw [read, pow_succ]
    omega

variable {file : ElfFile} {i : ℕ}

theorem phdrOff_lt : file.phdrOff i < 2 ^ 64 := wrap_lt 64 _

theorem phdr_lt : (file.phdr i).offset < 2 ^ 64 ∧ (file.phdr i).vaddr < 2 ^ 64 :=
  ⟨file.read_lt 8 _, file.read_lt 8 _⟩

/-- The page of a byte of a segment is one of the pages exactly if its address is in the range. -/
theorem pageIdx_lt_iff (hrange : file.pageRange.1 < file.pageRange.2) (ph : ElfPhdr) (off : ℕ) :
    file.pageIdx ph off < file.totalPages ↔
      file.pageRange.1 ≤ wrap 64 (ph.vaddr + off) ∧ wrap 64 (ph.vaddr + off) < file.pageRange.2 := by
  obtain ⟨⟨j, -, hstart⟩, k, -, hend⟩ := pageRange_spec hrange
  have hlt := file.segEnd_lt k
  have hw := wrap_lt 64 (ph.vaddr + off)
  rw [segStart] at hstart
  rw [segEnd] at hend hlt
  rw [pageIdx, totalPages]
  generalize wrap 64 (ph.vaddr + off) = w at *
  obtain hle | hgt := le_or_gt file.pageRange.1 w
  · rw [wrap_of_lt (n := w - file.pageRange.1) (by omega) (by omega)]
    omega
  · have hwrap : wrap 64 ((w : ℤ) - file.pageRange.1) = w + 2 ^ 64 - file.pageRange.1 := by
      rw [wrap]
      omega
    rw [hwrap]
    omega

/-- The contents of a segment go to the pages exactly if they lie in the range. -/
theorem forall_pageIdx_lt_iff (hrange : file.pageRange.1 < file.pageRange.2) {ph : ElfPhdr}
    (hvaddr : ph.vaddr < 2 ^ 64) (hpos : 0 < ph.filesz) :
    (∀ off < ph.filesz, file.pageIdx ph off < file.totalPages) ↔
      file.pageRange.1 ≤ ph.vaddr ∧ ph.vaddr + ph.filesz ≤ file.pageRange.2 := by
  obtain ⟨-, k, -, hend⟩ := pageRange_spec hrange
  have hlt := file.segEnd_lt k
  simp only [pageIdx_lt_iff hrange]
  rw [← forall_wrap_lt_iff hvaddr hpos (by omega)]
  constructor
  · intro h
    have h0 := (h 0 hpos).1
    rw [wrap_of_lt (Nat.cast_add _ _).symm (by omega)] at h0
    exact ⟨h0, fun off hoff => (h off hoff).2⟩
  · rintro ⟨hle, h⟩ off hoff
    refine ⟨?_, h off hoff⟩
    have hfit := (forall_wrap_lt_iff hvaddr hpos (by omega)).1 h
    rw [wrap_of_lt (Nat.cast_add _ _).symm (by omega)]
    omega

section

variable (hsize : file.size < 2 ^ 32)
include hsize

theorem read_inside_iff {off n : ℕ} (hoff : off < 2 ^ 64) (hn : 0 < n) :
    (ElfAccess.read off n).Inside file ↔ off + n ≤ file.size :=
  forall_wrap_lt_iff hoff hn (by omega)

/-- The scan reads the type of a header, and the rest of it for a loaded segment. -/
theorem scanAccesses_inside_iff :
    (∀ a ∈ file.scanAccesses i, a.Inside file) ↔ file.phdrOff i + 4 ≤ file.size ∧
      ((file.phdr i).type = 1 → file.phdrOff i + 48 ≤ file.size) := by
  rw [scanAccesses, List.forall_mem_cons, read_inside_iff hsize phdrOff_lt (by decide)]
  refine and_congr_right fun h4 => ?_
  by_cases htype : (file.phdr i).type = 1
  · rw [if_neg (not_not.2 htype), List.forall_mem_cons, read_inside_iff hsize (by omega) (by decide),
      imp_iff_right htype]
    refine and_iff_left_of_imp fun h48 a ha => ?_
    split_ifs at ha
    · cases ha
    · rw [List.mem_singleton.1 ha, read_inside_iff hsize (by omega) (by decide)]
      omega
  · rw [if_pos htype]
    exact iff_of_true (List.forall_mem_nil _) fun h => absurd h htype

/-- The accesses of the copying loop are in bounds exactly if the bytes of the segment are in the file and
its pages in the range. -/
theorem copyAccesses_inside_iff (hrange : file.pageRange.1 < file.pageRange.2)
    (h4 : file.phdrOff i + 4 ≤ file.size) (h48 : (file.phdr i).type = 1 → file.phdrOff i + 48 ≤ file.size) :
    (∀ a ∈ file.copyAccesses i, a.Inside file) ↔ ((file.phdr i).type = 1 → (file.phdr i).filesz ≠ 0 →
      (file.phdr i).offset + (file.phdr i).filesz ≤ file.size ∧ file.pageRange.1 ≤ (file.phdr i).vaddr ∧
        (file.phdr i).vaddr + (file.phdr i).filesz ≤ file.pageRange.2) := by
  have hread : ∀ d n, d + n ≤ 48 → (file.phdr i).type = 1 → 0 < n →
      (ElfAccess.read (file.phdrOff i + d) n).Inside file := fun d n hd htype hn =>
    (read_inside_iff hsize (by omega) hn).2 (by have := h48 htype; omega)
  rw [copyAccesses, List.forall_mem_cons, and_iff_right ((read_inside_iff hsize phdrOff_lt (by decide)).2 h4)]
  by_cases htype : (file.phdr i).type = 1
  · rw [if_neg (not_not.2 htype), List.forall_mem_cons,
      and_iff_right (hread 32 8 (by decide) htype (by decide)), imp_iff_right htype]
    have hbyte : ∀ off, (ElfAccess.read ((file.phdr i).offset + off) 1).Inside file ↔
        wrap 64 ((file.phdr i).offset + off) < file.size := fun off => by
      rw [ElfAccess.Inside]
      simp only [Nat.lt_one_iff, forall_eq, Nat.cast_zero, add_zero, Nat.cast_add]
    have hall : (∀ a ∈ (List.range (file.phdr i).filesz).flatMap fun off =>
          [.read (file.phdrOff i + 16) 8, .page (file.pageIdx (file.phdr i) off),
            .read (file.phdrOff i + 8) 8, .read ((file.phdr i).offset + off) 1], ElfAccess.Inside file a) ↔
        ∀ off < (file.phdr i).filesz, file.pageIdx (file.phdr i) off < file.totalPages ∧
          wrap 64 ((file.phdr i).offset + off) < file.size := by
      rw [List.forall_mem_flatMap]
      refine forall_congr' fun off => ?_
      rw [List.mem_range, List.forall_mem_cons, List.forall_mem_cons, List.forall_mem_cons,
        List.forall_mem_singleton, and_iff_right (hread 16 8 (by decide) htype (by decide)),
        and_iff_right (hread 8 8 (by decide) htype (by decide)), hbyte]
      rfl
    rw [hall]
    by_cases hpos : (file.phdr i).filesz = 0
    · exact iff_of_true (fun off hoff => absurd hoff (by omega)) fun h => absurd hpos h
    rw [imp_iff_right hpos, ← forall_pageIdx_lt_iff hrange phdr_lt.2 (Nat.pos_of_ne_zero hpos),
      ← forall_wrap_lt_iff phdr_lt.1 (Nat.pos_of_ne_zero hpos) (by omega), and_comm]
    exact forall₂_and
  · rw [if_pos htype]
    exact iff_of_true (List.forall_mem_nil _) fun h => absurd h htype

end

end ElfFile

/-- For a file that passes the checks of the header, the reads of the loader through the program header table
and through the offsets of the segments are inside of the file, and the page indices inside of the array,
exactly if the headers and the contents are contained. -/
theorem elf_accesses_inside_iff {file : ElfFile} (hsize : file.size < 2 ^ 32) (pagesOk : Bool) :
    (∀ a ∈ file.accesses pagesOk, a.Inside file) ↔ file.Contained pagesOk := by
  have hscan : (∀ a ∈ (List.range file.phnum).flatMap file.scanAccesses, a.Inside file) ↔
      ∀ i < file.phnum, file.phdrOff i + 4 ≤ file.size ∧
        ((file.phdr i).type = 1 → file.phdrOff i + 48 ≤ file.size) := by
    rw [List.forall_mem_flatMap]
    exact forall_congr' fun i => by rw [List.mem_range, ElfFile.scanAccesses_inside_iff hsize]
  have hreached : file.pageRange.1 < file.pageRange.2 ↔
      ∃ j k, file.Loaded j ∧ file.Loaded k ∧ file.segStart j < file.segEnd k := by
    constructor
    · intro h
      obtain ⟨⟨j, hj, hstart⟩, k, hk, hend⟩ := ElfFile.pageRange_spec h
      exact ⟨j, k, hj, hk, hstart ▸ hend ▸ h⟩
    · rintro ⟨j, k, hj, hk, hlt⟩
      have hle := ElfFile.pageRange_fst_le_iff.2 (.inr ⟨j, hj, le_rfl⟩)
      have hge := (ElfFile.le_pageRange_snd_iff (by omega)).2 ⟨k, hk, le_rfl⟩
      exact hle.trans_lt (hlt.trans_le hge)
  -- the range, in terms of the segments
  have hin : ∀ i, (file.phdr i).filesz ≠ 0 → ((file.pageRange.1 ≤ (file.phdr i).vaddr ∧
      (file.phdr i).vaddr + (file.phdr i).filesz ≤ file.pageRange.2) ↔
      (∃ j, file.Loaded j ∧ file.segStart j ≤ (file.phdr i).vaddr) ∧
        ∃ k, file.Loaded k ∧ (file.phdr i).vaddr + (file.phdr i).filesz ≤ file.segEnd k) := fun i hpos => by
    rw [ElfFile.pageRange_fst_le_iff, ElfFile.le_pageRange_snd_iff (by omega)]
    refine and_congr_left fun h => or_iff_right ?_
    obtain ⟨k, -, hend⟩ := h
    have := file.segEnd_lt k
    omega
  have hcopy : (∀ i < file.phnum, file.phdrOff i + 4 ≤ file.size ∧
      ((file.phdr i).type = 1 → file.phdrOff i + 48 ≤ file.size)) → file.pageRange.1 < file.pageRange.2 →
      ((∀ a ∈ (List.range file.phnum).flatMap file.copyAccesses, a.Inside file) ↔
        ∀ i < file.phnum, (file.phdr i).type = 1 → (file.phdr i).filesz ≠ 0 →
          (file.phdr i).offset + (file.phdr i).filesz ≤ file.size ∧
            (∃ j, file.Loaded j ∧ file.segStart j ≤ (file.phdr i).vaddr) ∧
            ∃ k, file.Loaded k ∧ (file.phdr i).vaddr + (file.phdr i).filesz ≤ file.segEnd k) := by
    intro hhdr hrange
    rw [List.forall_mem_flatMap]
    refine forall_congr' fun i => ?_
    rw [List.mem_range]
    refine imp_congr_right fun hi => ?_
    rw [ElfFile.copyAccesses_inside_iff hsize hrange (hhdr i hi).1 (hhdr i hi).2]
    exact imp_congr_right fun _ => imp_congr_right fun hpos => and_congr_right fun _ => hin i hpos
  rw [ElfFile.accesses, List.forall_mem_append, hscan]
  constructor
  · rintro ⟨hhdr, hall⟩
    refine ⟨fun i hi => (hhdr i hi).1, fun i hi => (hhdr i hi).2, fun hok hr => ?_⟩
    rw [if_pos ⟨hreached.2 hr, hok⟩] at hall
    exact (hcopy hhdr (hreached.2 hr)).1 hall
  · rintro ⟨hheader, hload, hcontent⟩
    refine ⟨fun i hi => ⟨hheader i hi, hload i hi⟩, ?_⟩
    split_ifs with h
    · exact (hcopy (fun i hi => ⟨hheader i hi, hload i hi⟩) h.1).2 (hcontent h.2 (hreached.1 h.1))
    · exact List.forall_mem_nil _

/-- A file that consists of an ELF header, with one program header behind it, and other bytes. -/
def elfFileOf (rest : List UInt8) : ElfFile :=
  let bytes := [0x7F, 0x45, 0x4C, 0x46, 2] ++ List.replicate 11 0 ++ [2, 0, 62, 0] ++ List.replicate 12 0 ++
    [64] ++ List.replicate 21 0 ++ [56, 0, 1, 0] ++ List.replicate 6 0 ++ rest
  ⟨bytes.length, fun i => bytes.getD i 0⟩

/-- A program header for a segment at `0x600000` with the 120 bytes of the file. -/
def elfSegment : List UInt8 :=
  [1, 0, 0, 0] ++ List.replicate 14 0 ++ [0x60] ++ List.replicate 13 0 ++ [120] ++ List.replicate 7 0 ++
    [120] ++ List.replicate 15 0

/-- A file with one segment. -/
theorem elf_accesses_inside_segment :
    (elfFileOf elfSegment).size = 120 ∧
      ∀ a ∈ (elfFileOf elfSegment).accesses true, a.Inside (elfFileOf elfSegment) := by
  have hnum : (elfFileOf elfSegment).phnum = 1 := by decide +kernel
  have hload : (elfFileOf elfSegment).Loaded 0 := ⟨by decide +kernel, by decide +kernel, by decide +kernel⟩
  refine ⟨by decide +kernel, (elf_accesses_inside_iff (by decide +kernel) true).2
    ⟨by decide +kernel, by decide +kernel, fun _ _ i hi _ _ => ?_⟩⟩
  obtain rfl : i = 0 := by omega
  exact ⟨by decide +kernel, ⟨0, hload, by decide +kernel⟩, 0, hload, by decide +kernel⟩

/-- A file that ends with the ELF header. -/
theorem elf_reads_past_file :
    ¬∀ (file : ElfFile) (pagesOk : Bool), file.validHeader = true → 64 ≤ file.size → file.size < 2 ^ 32 →
      ∀ a ∈ file.accesses pagesOk, a.Inside file := by
  intro h
  have hmem : ElfAccess.read ((elfFileOf []).phdrOff 0) 4 ∈ (elfFileOf []).accesses false :=
    List.mem_append_left _ (List.mem_flatMap.2 ⟨0, List.mem_range.2 (by decide +kernel), List.mem_cons_self⟩)
  have hread := h (elfFileOf []) false (by decide +kernel) (by decide +kernel) (by decide +kernel) _ hmem 0
    (by decide)
  exact absurd hread (by decide +kernel)

end PlantOS.Fs
