import PlantOS.Mm.Vmm

/-!
# The ELF loader

Model of `elf_load`. The file is in a kernel buffer; `ElfFile.byte` gives the bytes from the start of the
buffer on, also those behind the file, which the loader may read. `page_phys` is a kernel array of
`total_pages` words; what an access behind it finds is the parameter `stray`.

The calls of the file system and of `kmalloc` are inputs: whether the file could be read into a buffer,
and whether there was memory for `page_phys`.

Reference: `fs/elf_loader.c`, `include/elf.h`.
-/

namespace PlantOS.Fs

open PlantOS.Mm Word

/-- A file in a buffer. -/
structure ElfFile where
  size : ℕ
  byte : ℕ → UInt8

/-- The little-endian number in the `n` bytes from `off` on. -/
def ElfFile.read (file : ElfFile) : ℕ → ℕ → ℕ
  | 0, _ => 0
  | n + 1, off => (file.byte off).toNat + 256 * file.read n (wrap 64 (off + 1))

/-- The fields of `Elf64_Phdr` that the loader reads. -/
structure ElfPhdr where
  type : ℕ
  offset : ℕ
  vaddr : ℕ
  filesz : ℕ
  memsz : ℕ

/-- `struct elf_info`. -/
structure ElfInfo where
  entry : ℕ
  loadBase : ℕ
  numPages : ℕ
deriving DecidableEq

namespace ElfFile

/-- `e_phnum`. -/
def phnum (file : ElfFile) : ℕ := file.read 2 56

/-- The program header `i`. The product `i * e_phentsize` is an `int`. -/
def phdr (file : ElfFile) (i : ℕ) : ElfPhdr :=
  let hdr := wrap 64 (file.read 8 32 + toInt32 (i * file.read 2 54))
  { type := file.read 4 hdr
    offset := file.read 8 (wrap 64 (hdr + 8))
    vaddr := file.read 8 (wrap 64 (hdr + 16))
    filesz := file.read 8 (wrap 64 (hdr + 32))
    memsz := file.read 8 (wrap 64 (hdr + 40)) }

/-- The checks of the ELF header. -/
def validHeader (file : ElfFile) : Bool :=
  file.read 4 0 = 0x464C457F ∧ (file.byte 4).toNat = 2 ∧ file.read 2 16 = 2 ∧ file.read 2 18 = 62

/-- One iteration of the loop that finds the page range: `(lowest_vaddr, highest_end)`. -/
def scanPhdr (range : ℕ × ℕ) (ph : ElfPhdr) : ℕ × ℕ :=
  if ph.type ≠ 1 ∨ ph.memsz = 0 then range
  else
    let segStart := ph.vaddr / 4096 * 4096
    let segEnd := wrap 64 (ph.vaddr + ph.memsz + 0xFFF) / 4096 * 4096
    (if segStart < range.1 then segStart else range.1,
      if segEnd > range.2 then segEnd else range.2)

/-- The page range of the loadable segments. -/
def pageRange (file : ElfFile) : ℕ × ℕ :=
  (List.range file.phnum).foldl (fun range i => scanPhdr range (file.phdr i)) (2 ^ 64 - 1, 0)

/-- `total_pages`. -/
def totalPages (file : ElfFile) : ℕ := (file.pageRange.2 - file.pageRange.1) / 4096

/-- `page_idx` of the byte `off` of a segment. -/
def pageIdx (file : ElfFile) (ph : ElfPhdr) (off : ℕ) : ℕ :=
  wrap 64 ((wrap 64 (ph.vaddr + off) : ℤ) - file.pageRange.1) / 4096

end ElfFile

/-- The loop that allocates `n` pages more than those in `pages`; if it runs out of memory it releases
them. -/
def elfAllocPages : ℕ → List ℕ → Vm → Option (List ℕ) × Vm
  | 0, pages, vm => (some pages, vm)
  | n + 1, pages, vm =>
    let r := vm.alloc
    if r.1 = 0 then (none, pages.foldl Vm.free r.2)
    else elfAllocPages n (pages ++ [r.1]) (r.2.setPage r.1 fun _ => 0)

/-- `*dst = b`. -/
def writeByte (vm : Vm) (dst : ℕ) (b : UInt8) : Vm :=
  let page := dst / 4096 * 4096
  let i := dst % 4096 / 8
  let shift := 256 ^ (dst % 8)
  let word := vm.mem page i
  vm.set page i (word - word / shift % 256 * shift + b.toNat * shift)

/-- `page_phys[idx] + off`. The address of a frame and an offset into it do not overflow. -/
def elfDst (stray : ℕ → ℕ) (pages : List ℕ) (idx off : ℕ) : ℕ :=
  match pages[idx]? with
  | some frame => frame + off
  | none => wrap 64 (stray idx + off)

/-- The loop over `n` bytes of a segment, from `off` on. -/
def elfCopyBytes (file : ElfFile) (stray : ℕ → ℕ) (pages : List ℕ) (ph : ElfPhdr) :
    ℕ → ℕ → Vm → Vm
  | 0, _, vm => vm
  | n + 1, off, vm =>
    let dst := elfDst stray pages (file.pageIdx ph off) (wrap 64 (ph.vaddr + off) % 4096)
    elfCopyBytes file stray pages ph n (off + 1)
      (writeByte vm dst (file.byte (wrap 64 (ph.offset + off))))

/-- The loop that copies the segments. -/
def elfCopySegments (file : ElfFile) (stray : ℕ → ℕ) (pages : List ℕ) (vm : Vm) : Vm :=
  (List.range file.phnum).foldl
    (fun vm i =>
      let ph := file.phdr i
      if ph.type ≠ 1 ∨ ph.filesz = 0 then vm
      else elfCopyBytes file stray pages ph ph.filesz 0 vm) vm

/-- The loop that maps the pages, from `vaddr` on. -/
def elfMapPages (cr3 : ℕ) : List ℕ → ℕ → Vm → Vm
  | [], _, vm => vm
  | page :: pages, vaddr, vm =>
    elfMapPages cr3 pages (wrap 64 (vaddr + 4096)) (vmmMapPageIn vm cr3 vaddr page 7)

/-- `elf_load`: the info, or `none` for the result -1. `file` is `none` if the file could not be read into
a buffer, and `arrayOk` says whether there was memory for `page_phys`. -/
def elfLoad (vm : Vm) (cr3 : ℕ) (file : Option ElfFile) (arrayOk : Bool) (stray : ℕ → ℕ) :
    Option ElfInfo × Vm :=
  match file with
  | none => (none, vm)
  | some file =>
    if file.size < 64 then (none, vm)
    else if ¬file.validHeader then (none, vm)
    else if file.pageRange.2 ≤ file.pageRange.1 then (none, vm)
    else if ¬arrayOk then (none, vm)
    else
      match elfAllocPages file.totalPages [] vm with
      | (none, vm) => (none, vm)
      | (some pages, vm) =>
        (some ⟨file.read 8 24, file.pageRange.1, file.totalPages⟩,
          elfMapPages cr3 pages file.pageRange.1 (elfCopySegments file stray pages vm))

end PlantOS.Fs
