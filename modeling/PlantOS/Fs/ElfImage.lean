import PlantOS.Fs.ElfBounds
import PlantOS.Fs.PageBytes
import PlantOS.Mm.VmmCloneFails
import PlantOS.Mm.VmmOnePage
import PlantOS.Task.UserMemoryInvariant

/-!
# The image of a program

The loader copies the segments in the order of the table, byte by byte, into pages that it maps afterwards.
For a file whose headers and segments are in order the loaded bytes are those that the program header table
describes: `elfImage`, where a later segment covers an earlier one.

`pagesByte` is the array of pages as memory from the first address on; copying a byte is an update of it at
one address.

Reference: `fs/elf_loader.c`.
-/

namespace PlantOS.Fs

open PlantOS.Mm Word
open PlantOS.Task (WritesOnly ElfFits elfAllocPages_spec elfCopySegments_spec)

/-! ## What the file describes -/

/-- The contents of the segment cover the address. -/
def ElfPhdr.Covers (ph : ElfPhdr) (v : ℕ) : Prop := ph.type = 1 ∧ ph.vaddr ≤ v ∧ v < ph.vaddr + ph.filesz

instance (ph : ElfPhdr) (v : ℕ) : Decidable (ph.Covers v) := inferInstanceAs (Decidable (_ ∧ _))

/-- The byte at `v`: that of the last segment that covers it, or zero. -/
def elfImage (byte : ℕ → UInt8) (segs : List ElfPhdr) (v : ℕ) : UInt8 :=
  (segs.reverse.find? (·.Covers v)).elim 0 fun ph => byte (ph.offset + (v - ph.vaddr))

theorem elfImage_append (byte : ℕ → UInt8) (segs : List ElfPhdr) (ph : ElfPhdr) (v : ℕ) :
    elfImage byte (segs ++ [ph]) v =
      if ph.Covers v then byte (ph.offset + (v - ph.vaddr)) else elfImage byte segs v := by
  rw [elfImage, List.reverse_append, List.reverse_singleton, List.singleton_append]
  split_ifs with h
  · rw [List.find?_cons_of_pos (by simpa using h), Option.elim_some]
  · rw [List.find?_cons_of_neg (by simpa using h), elfImage]

namespace ElfFile

/-- The program header `i`, at its place in the table. -/
def segment (file : ElfFile) (i : ℕ) : ElfPhdr :=
  let hdr := file.read 8 32 + i * file.read 2 54
  ⟨file.read 4 hdr, file.read 8 (hdr + 8), file.read 8 (hdr + 16), file.read 8 (hdr + 32),
    file.read 8 (hdr + 40)⟩

/-- The program headers. -/
def segments (file : ElfFile) : List ElfPhdr := (List.range file.phnum).map file.segment

/-- The program headers and the contents of the segments lie in the file, no segment has more contents than
memory, and all are below 4 GB. A file of 2 GB does not fit into the heap. -/
structure Sound (file : ElfFile) : Prop where
  size_lt : file.size < 2 ^ 31
  table : ∀ i < file.phnum, file.read 8 32 + i * file.read 2 54 + 56 ≤ file.size
  content : ∀ ph ∈ file.segments, ph.type = 1 → ph.offset + ph.filesz ≤ file.size ∧
    ph.filesz ≤ ph.memsz ∧ ph.vaddr + ph.memsz ≤ 2 ^ 32

variable {file : ElfFile}

/-- No offset wraps in the loader. -/
theorem Sound.phdr_eq (h : file.Sound) {i : ℕ} (hi : i < file.phnum) : file.phdr i = file.segment i := by
  have htable := h.table i hi
  have hsize := h.size_lt
  have hmod : toInt32 (i * file.read 2 54) = (i * file.read 2 54 : ℕ) := by
    rw [← Nat.cast_mul]
    exact toInt32_of_lt (by omega)
  have hhdr : wrap 64 (file.read 8 32 + toInt32 (i * file.read 2 54)) =
      file.read 8 32 + i * file.read 2 54 := by
    rw [hmod]
    exact wrap_of_lt (Nat.cast_add _ _).symm (by omega)
  have hfield : ∀ d ≤ 40, wrap 64 ((file.read 8 32 + i * file.read 2 54 : ℕ) + (d : ℕ)) =
      file.read 8 32 + i * file.read 2 54 + d := fun d hd => wrap_of_lt (Nat.cast_add _ _).symm (by omega)
  rw [phdr, segment, hhdr]
  rw [ElfPhdr.mk.injEq]
  exact ⟨rfl, congrArg (file.read 8) (hfield 8 (by decide)), congrArg (file.read 8) (hfield 16 (by decide)),
    congrArg (file.read 8) (hfield 32 (by decide)), congrArg (file.read 8) (hfield 40 (by decide))⟩

theorem Sound.segments_eq (h : file.Sound) : file.segments = (List.range file.phnum).map file.phdr :=
  List.map_congr_left fun _ hi => (h.phdr_eq (List.mem_range.1 hi)).symm

/-- The segments lie in the page range. -/
theorem Sound.in_range (h : file.Sound) (hrange : file.pageRange.1 < file.pageRange.2) :
    file.pageRange.1 % 4096 = 0 ∧ file.pageRange.1 + file.totalPages * 4096 = file.pageRange.2 ∧
      file.pageRange.2 ≤ 2 ^ 32 ∧ ∀ ph ∈ file.segments, ph.type = 1 → 0 < ph.memsz →
        file.pageRange.1 ≤ ph.vaddr ∧ ph.vaddr + ph.memsz ≤ file.pageRange.2 := by
  have hseg : ∀ i, file.Loaded i → (file.phdr i).vaddr + (file.phdr i).memsz ≤ 2 ^ 32 := fun i hi =>
    (h.content _ (h.segments_eq ▸ List.mem_map_of_mem (List.mem_range.2 hi.1)) hi.2.1).2.2
  have hend : ∀ i, file.Loaded i →
      file.segEnd i = ((file.phdr i).vaddr + (file.phdr i).memsz + 0xFFF) / 4096 * 4096 := by
    intro i hi
    have := hseg i hi
    rw [segEnd, @wrap_of_lt 64 ((file.phdr i).vaddr + (file.phdr i).memsz + 0xFFF) _ (by push_cast; rfl)
      (by omega)]
  obtain ⟨⟨j, hj, hstart⟩, k, hk, hstop⟩ := pageRange_spec hrange
  have hk' := hseg k hk
  rw [hend k hk] at hstop
  rw [segStart] at hstart
  refine ⟨by omega, by rw [totalPages]; omega, by omega, fun ph hph htype hpos => ?_⟩
  rw [h.segments_eq] at hph
  obtain ⟨i, hi, rfl⟩ := List.mem_map.1 hph
  have hload : file.Loaded i := ⟨List.mem_range.1 hi, htype, hpos.ne'⟩
  have hlo := pageRange_fst_le_iff.2 (.inr ⟨i, hload, le_rfl⟩)
  have hhi := (le_pageRange_snd_iff (by rw [hend i hload]; omega)).2 ⟨i, hload, le_rfl⟩
  rw [hend i hload] at hhi
  rw [segStart] at hlo
  omega

end ElfFile

/-! ## Copying -/

/-- The byte at `v` in the pages, of which the first has the address `base`. -/
def pagesByte (pages : List ℕ) (base : ℕ) (vm : Vm) (v : ℕ) : UInt8 :=
  pageByte vm (pages.getD ((v - base) / 4096) 0) (v % 4096)

theorem elfDst_eq {stray : ℕ → ℕ} {pages : List ℕ} {idx : ℕ} (h : idx < pages.length) (off : ℕ) :
    elfDst stray pages idx off = pages.getD idx 0 + off := by
  rw [elfDst, List.getElem?_eq_getElem h, List.getD_eq_getElem pages 0 h]

section Copy

variable {pages : List ℕ} {base : ℕ} {vm : Vm} (hal : ∀ p ∈ pages, p % 4096 = 0) (hnodup : pages.Nodup)
  (hbase : base % 4096 = 0)
include hal hnodup hbase

/-- A byte is stored at `v`. -/
theorem pagesByte_writeByte {v w : ℕ} (hv : base ≤ v ∧ v < base + pages.length * 4096)
    (hw : base ≤ w ∧ w < base + pages.length * 4096) (b : UInt8) :
    pagesByte pages base (writeByte vm (pages.getD ((v - base) / 4096) 0 + v % 4096) b) w =
      if w = v then b else pagesByte pages base vm w := by
  have hi : (v - base) / 4096 < pages.length := by omega
  have hj : (w - base) / 4096 < pages.length := by omega
  have hoff : v % 4096 < 4096 := Nat.mod_lt v (by decide)
  have hpage : pages.getD ((v - base) / 4096) 0 % 4096 = 0 := by
    rw [List.getD_eq_getElem pages 0 hi]
    exact hal _ (List.getElem_mem hi)
  by_cases hij : (w - base) / 4096 = (v - base) / 4096
  · rw [pagesByte, hij, pageByte_writeByte hpage hoff, Function.update_apply, pagesByte, hij]
    exact if_congr (by omega) rfl rfl
  · have hne : pages.getD ((w - base) / 4096) 0 ≠ pages.getD ((v - base) / 4096) 0 := by
      rw [List.getD_eq_getElem pages 0 hi, List.getD_eq_getElem pages 0 hj]
      exact fun heq => hij ((hnodup.getElem_inj_iff).1 heq)
    have hdst : (pages.getD ((v - base) / 4096) 0 + v % 4096) / 4096 * 4096 =
        pages.getD ((v - base) / 4096) 0 := by omega
    rw [if_neg (by rintro rfl; exact hij rfl), pagesByte, writeByte, hdst, pageByte_set_ne hne, pagesByte]

/-- The loop over the bytes of a segment. -/
theorem pagesByte_elfCopyBytes {file : ElfFile} {stray : ℕ → ℕ} {ph : ElfPhdr}
    (hstart : file.pageRange.1 = base) (hlo : base ≤ ph.vaddr)
    (htop : base + pages.length * 4096 ≤ 2 ^ 32) {n off : ℕ}
    (hhi : ph.vaddr + off + n ≤ base + pages.length * 4096) (hfile : ph.offset + off + n < 2 ^ 64) {w : ℕ}
    (hw : base ≤ w ∧ w < base + pages.length * 4096) :
    pagesByte pages base (elfCopyBytes file stray pages ph n off vm) w =
      if ph.vaddr + off ≤ w ∧ w < ph.vaddr + off + n then file.byte (ph.offset + (w - ph.vaddr))
      else pagesByte pages base vm w := by
  induction n generalizing off vm with
  | zero => exact (if_neg (by omega)).symm
  | succ n ih =>
    have haddr : wrap 64 (ph.vaddr + off) = ph.vaddr + off := wrap_of_lt (Nat.cast_add _ _).symm (by omega)
    have hbyte : wrap 64 (ph.offset + off) = ph.offset + off := wrap_of_lt (Nat.cast_add _ _).symm (by omega)
    have hidx : file.pageIdx ph off = (ph.vaddr + off - base) / 4096 := by
      rw [ElfFile.pageIdx, haddr, hstart, wrap_of_lt (n := ph.vaddr + off - base) (by omega) (by omega)]
    rw [elfCopyBytes, haddr, hbyte, hidx, elfDst_eq (by omega), ih (by omega) (by omega),
      pagesByte_writeByte hal hnodup hbase (by omega) hw]
    by_cases heq : w = ph.vaddr + off
    · rw [if_neg (by omega), if_pos heq, if_pos (by omega), heq, Nat.add_sub_cancel_left]
    · rw [if_neg heq]
      exact if_congr (by omega) rfl rfl

/-- The loop over the segments, on pages that are zero. -/
theorem pagesByte_elfCopySegments {file : ElfFile} {stray : ℕ → ℕ} (hstart : file.pageRange.1 = base)
    (htop : base + pages.length * 4096 ≤ 2 ^ 32)
    (hsegs : ∀ i < file.phnum, (file.phdr i).type = 1 → (file.phdr i).filesz ≠ 0 →
      base ≤ (file.phdr i).vaddr ∧ (file.phdr i).vaddr + (file.phdr i).filesz ≤ base + pages.length * 4096 ∧
      (file.phdr i).offset + (file.phdr i).filesz < 2 ^ 64)
    {w : ℕ} (hw : base ≤ w ∧ w < base + pages.length * 4096) (hzero : pagesByte pages base vm w = 0) :
    pagesByte pages base (elfCopySegments file stray pages vm) w =
      elfImage file.byte ((List.range file.phnum).map file.phdr) w := by
  rw [elfCopySegments]
  have hloop : ∀ n ≤ file.phnum, pagesByte pages base ((List.range n).foldl (fun vm i =>
      if (file.phdr i).type ≠ 1 ∨ (file.phdr i).filesz = 0 then vm
      else elfCopyBytes file stray pages (file.phdr i) (file.phdr i).filesz 0 vm) vm) w =
      elfImage file.byte ((List.range n).map file.phdr) w := by
    intro n hn
    induction n with
    | zero => exact hzero
    | succ n ih =>
      rw [List.range_succ, List.foldl_append, List.map_append, List.map_singleton, elfImage_append,
        ← ih (by omega), List.foldl_cons, List.foldl_nil]
      have hseg := hsegs n hn
      generalize file.phdr n = ph at hseg ⊢
      by_cases hskip : ph.type ≠ 1 ∨ ph.filesz = 0
      · rw [if_pos hskip, if_neg]
        rintro ⟨htype, hlo, hhi⟩
        obtain hne | hempty := hskip
        · exact hne htype
        · omega
      · obtain ⟨htype, hpos⟩ := not_or.1 hskip
        obtain ⟨hlo, hhi, hfile⟩ := hseg (not_not.1 htype) hpos
        rw [if_neg hskip, pagesByte_elfCopyBytes hal hnodup hbase hstart hlo htop (by omega) (by omega) hw,
          Nat.add_zero]
        exact if_congr (and_iff_right (not_not.1 htype)).symm rfl rfl
  exact hloop _ le_rfl

end Copy

/-! ## Allocating and mapping -/

/-- The pages that the loader allocates are zero. -/
theorem elfAllocPages_zero {s : Vm} (h0 : s.Used 0) {n : ℕ} {pages ps : List ℕ}
    (hpages : ∀ p ∈ pages, s.Used p ∧ s.mem p = fun _ => 0) (h : (elfAllocPages n pages s).1 = some ps) :
    ∀ p ∈ ps, (elfAllocPages n pages s).2.mem p = fun _ => 0 := by
  induction n generalizing s pages with
  | zero =>
    cases h
    exact fun p hp => (hpages p hp).2
  | succ n ih =>
    rw [elfAllocPages] at h ⊢
    obtain heq | ⟨hne, hnew, hext⟩ := Vm.alloc_cases h0
    · rw [heq, if_pos rfl] at h
      cases h
    · rw [if_neg hne] at h ⊢
      have h0' : (s.alloc.2.setPage s.alloc.1 fun _ => 0).Used 0 := hext.used 0 h0
      refine ih h0' (fun p hp => ?_) h
      obtain hp | hp := List.mem_append.1 hp
      · obtain ⟨hused, hzero⟩ := hpages p hp
        exact ⟨hext.used p hused, by rw [Vm.mem_setPage_ne (hnew.ne hused).symm, Vm.mem_alloc, hzero]⟩
      · rw [List.mem_singleton.1 hp]
        exact ⟨hnew.used, Vm.mem_setPage_self⟩

/-- Every call of `vmm_map_page_in` in the loop finds or creates the page table. -/
def ElfMapsOk (cr3 : ℕ) : List ℕ → ℕ → Vm → Prop
  | [], _, _ => True
  | page :: pages, vaddr, vm =>
    (pageTableFor vm cr3 vaddr 7).1 ≠ 0 ∧
      ElfMapsOk cr3 pages (wrap 64 (vaddr + 4096)) (vmmMapPageIn vm cr3 vaddr page 7)

/-- The loop that maps the pages writes to tables only, and gives the addresses from `vaddr` on the pages. -/
theorem physAddr_elfMapPages {K : Kernel} {roots : ℕ → Prop} {s : Vm} {r vaddr : ℕ} {pages : List ℕ}
    (h : FrameInv K True roots s) (hr : roots r) (hloose : ∀ p ∈ pages, Loose K True roots s p)
    (hnodup : pages.Nodup) (hal : vaddr % 4096 = 0) (htop : vaddr + pages.length * 4096 ≤ 2 ^ 32)
    (hok : ElfMapsOk r pages vaddr s) :
    (∀ a, s.Used a → ¬IsTable s.mem roots a → (elfMapPages r pages vaddr s).mem a = s.mem a) ∧
      ∀ v < 2 ^ 32, physAddr (elfMapPages r pages vaddr s).mem r v =
        if vaddr ≤ v ∧ v < vaddr + pages.length * 4096 then
          some (pages.getD ((v - vaddr) / 4096) 0 + v % 4096)
        else physAddr s.mem r v := by
  induction pages generalizing s vaddr with
  | nil => exact ⟨fun _ _ _ => rfl, fun v _ => (if_neg (by simp only [List.length_nil]; omega)).symm⟩
  | cons page pages ih =>
    obtain ⟨hpage, hnodup⟩ := List.nodup_cons.1 hnodup
    rw [List.length_cons] at htop
    have hl := hloose page List.mem_cons_self
    have haddr : pteAddr page = page := Nat.div_mul_cancel (Nat.dvd_of_mod_eq_zero hl.used.1)
    have hmap := vmmMapPageIn_spec h hr vaddr (by rwa [haddr]) (by decide : 7 < 4096)
    obtain ⟨-, hphys⟩ := h.walkable.vmmMapPageIn hr vaddr page 7
    rw [if_neg hok.1] at hphys
    have hnext : wrap 64 (vaddr + 4096) = vaddr + 4096 := wrap_of_lt (by push_cast; rfl) (by omega)
    have hrest := hok.2
    rw [hnext] at hrest
    obtain ⟨hmem, htrans⟩ := ih hmap.inv (fun p hp => hmap.loose (hloose p (List.mem_cons_of_mem page hp))
      (by rw [haddr]; rintro rfl; exact hpage hp)) hnodup (by omega) (by omega) hrest
    rw [elfMapPages, hnext, List.length_cons]
    constructor
    · intro a ha ht
      obtain ⟨ht', hdata⟩ := hmap.data a ha ht
      rw [hmem a (hmap.used a ha) ht', hdata]
    · intro v hv
      rw [htrans v hv, hphys r v hr]
      -- `v` is in a later page, in this page or in none of them.
      by_cases hlater : vaddr + 4096 ≤ v ∧ v < vaddr + 4096 + pages.length * 4096
      · have hidx : (v - vaddr) / 4096 = (v - (vaddr + 4096)) / 4096 + 1 := by omega
        rw [if_pos hlater, if_pos (by omega), hidx, List.getD_cons_succ]
      rw [if_neg hlater]
      by_cases hthis : vaddr ≤ v ∧ v < vaddr + 4096
      · have hidx : (v - vaddr) / 4096 = 0 := by omega
        rw [if_pos ⟨rfl, pagePath_eq_iff.2 (by omega)⟩, if_pos (by omega), hidx, List.getD_cons_zero, ptPhys,
          if_pos ((present_or (pteAddr_aligned page) (by decide)).2 (by decide)),
          pteAddr_or (pteAddr_aligned page) (by decide), haddr]
      · rw [if_neg fun hp => ?_, if_neg (by omega)]
        have := pagePath_eq_iff.1 hp.2
        omega

/-! ## The loaded program -/

/-- A byte of the address space below the PML4 `cr3`. -/
def spaceByte (vm : Vm) (cr3 v : ℕ) : Option UInt8 :=
  (physAddr vm.mem cr3 v).map fun phys => pageByte vm (phys / 4096 * 4096) (phys % 4096)

/-- If all pages can be allocated and mapped, the loaded program is the image that the file describes, and all
segments are in the range that is loaded. -/
theorem elf_load_image {K : Kernel} {roots : ℕ → Prop} {vm vm' : Vm} {cr3 : ℕ} {file : ElfFile}
    {stray : ℕ → ℕ} {info : ElfInfo} (hvm : FrameInv K True roots vm) (hr : roots cr3) (hfile : file.Sound)
    (hload : elfLoad vm cr3 (some file) true stray = (some info, vm'))
    (hmaps : ∀ pages t, elfAllocPages file.totalPages [] vm = (some pages, t) →
      ElfMapsOk cr3 pages info.loadBase (elfCopySegments file stray pages t)) :
    (∀ v, info.loadBase ≤ v → v < info.loadBase + info.numPages * 4096 →
        spaceByte vm' cr3 v = some (elfImage file.byte file.segments v)) ∧
      ∀ ph ∈ file.segments, ph.type = 1 → 0 < ph.memsz →
        info.loadBase ≤ ph.vaddr ∧ ph.vaddr + ph.memsz ≤ info.loadBase + info.numPages * 4096 := by
  unfold elfLoad at hload
  dsimp only at hload
  split at hload
  · cases hload
  split at hload
  · cases hload
  split at hload
  · cases hload
  rename_i hrange
  obtain ⟨hal, hpages, htop, hsegs⟩ := hfile.in_range (not_le.1 hrange)
  rw [if_neg (by decide)] at hload
  split at hload
  · cases hload
  rename_i pages t halloc
  obtain ⟨hinfo, rfl⟩ := Prod.mk.inj hload
  obtain rfl := Option.some.inj hinfo
  obtain ⟨hx, hres⟩ := elfAllocPages_spec hvm.used_zero file.totalPages (.refl _ vm)
    (fun p hp => absurd hp List.not_mem_nil) List.nodup_nil
  have hzero : ∀ p ∈ pages, (elfAllocPages file.totalPages [] vm).2.mem p = fun _ => 0 :=
    elfAllocPages_zero hvm.used_zero (fun p hp => absurd hp List.not_mem_nil) (by rw [halloc])
  rw [halloc] at hx hres hzero
  obtain ⟨hlen, hnodup, hfresh⟩ := hres pages rfl
  rw [List.length_nil, Nat.zero_add] at hlen
  rw [← hlen] at hpages
  have haligned : ∀ p ∈ pages, p % 4096 = 0 := fun p hp => (hfresh p hp).aligned
  -- the segments, as the loader reads them
  have hin : ∀ i < file.phnum, (file.phdr i).type = 1 → (file.phdr i).filesz ≠ 0 →
      file.pageRange.1 ≤ (file.phdr i).vaddr ∧
        (file.phdr i).vaddr + (file.phdr i).filesz ≤ file.pageRange.1 + pages.length * 4096 ∧
        (file.phdr i).offset + (file.phdr i).filesz < 2 ^ 64 := by
    intro i hi htype hpos
    have hmem : file.phdr i ∈ file.segments := hfile.segments_eq ▸ List.mem_map_of_mem (List.mem_range.2 hi)
    obtain ⟨hcontent, hle, -⟩ := hfile.content _ hmem htype
    have hseg := hsegs _ hmem htype (by omega)
    have hsize := hfile.size_lt
    omega
  have hfits : ElfFits file := fun i hi htype off hoff => by
    obtain ⟨hlo, hhi, -⟩ := hin i hi htype (by omega)
    have hiff := ElfFile.forall_pageIdx_lt_iff (not_le.1 hrange) (@ElfFile.phdr_lt file i).2 (by omega)
    exact hiff.2 ⟨hlo, by omega⟩ off hoff
  have hcopy : WritesOnly _ t (elfCopySegments file stray pages t) := elfCopySegments_spec hfits hlen haligned
  have hx' := hcopy.ext hx fun p hp => (hfresh p hp).not_used
  have hloose : ∀ p ∈ pages, Loose K True roots (elfCopySegments file stray pages t) p := fun p hp =>
    hvm.loose_of_fresh hx' ⟨(hfresh p hp).not_used, hcopy.used_iff.2 (hfresh p hp).used⟩
  obtain ⟨hmem, hphys⟩ :=
    physAddr_elfMapPages (hvm.ext hx') hr hloose hnodup hal (by omega) (hmaps pages t halloc)
  rw [← hlen]
  dsimp only
  refine ⟨fun v hlo hhi => ?_, fun ph hph htype hpos => hpages ▸ hsegs ph hph htype hpos⟩
  have hidx : (v - file.pageRange.1) / 4096 < pages.length := by omega
  have hpage : pages.getD ((v - file.pageRange.1) / 4096) 0 ∈ pages := by
    rw [List.getD_eq_getElem pages 0 hidx]
    exact List.getElem_mem hidx
  have hl := hloose _ hpage
  rw [spaceByte, hphys v (by omega), if_pos ⟨hlo, hhi⟩, Option.map_some, hfile.segments_eq,
    ← pagesByte_elfCopySegments haligned hnodup hal rfl (by omega) hin ⟨hlo, hhi⟩ ?_]
  · have hdiv : (pages.getD ((v - file.pageRange.1) / 4096) 0 + v % 4096) / 4096 * 4096 =
        pages.getD ((v - file.pageRange.1) / 4096) 0 := by
      have := hl.used.1
      omega
    have hmod : (pages.getD ((v - file.pageRange.1) / 4096) 0 + v % 4096) % 4096 = v % 4096 := by
      have := hl.used.1
      omega
    rw [hdiv, hmod, pagesByte, pageByte, pageByte, hmem _ hl.used hl.not_table]
  · rw [pagesByte, pageByte, hzero _ hpage, Nat.zero_div]
    rfl

/-- A file with one segment of 120 bytes, loaded into an address space of the example kernel. -/
theorem elf_load_image_segment :
    spaceByte (elfLoad smallSpace (7 * 4096) (some (elfFileOf elfSegment)) true fun _ => 0).2 (7 * 4096)
      0x600002 = some 0x4C := by
  have hinv : FrameInv demoKernel True (· = 7 * 4096) smallSpace :=
    (spaceBuilt_small.frameInv (booted_demo.frameInv True)).mono fun x hx => .inr hx
  have hload : (elfLoad smallSpace (7 * 4096) (some (elfFileOf elfSegment)) true fun _ => 0).1 =
      some ⟨0, 0x600000, 1⟩ := by decide +kernel
  have hsound : (elfFileOf elfSegment).Sound := ⟨by decide +kernel, by decide +kernel, by
    rw [ElfFile.segments]
    decide +kernel⟩
  generalize hpair : elfLoad smallSpace (7 * 4096) (some (elfFileOf elfSegment)) true (fun _ => 0) = r
    at hload ⊢
  obtain ⟨info, vm'⟩ := r
  obtain rfl : info = _ := hload
  have himage := (elf_load_image hinv rfl hsound hpair ?_).1 0x600002 (by decide) (by decide)
  · rw [himage]
    decide +kernel
  · intro pages t halloc
    have hpages : (elfAllocPages (elfFileOf elfSegment).totalPages [] smallSpace).1 = some [512 * 4096] := by
      decide +kernel
    rw [halloc] at hpages
    obtain rfl := Option.some.inj hpages
    obtain rfl := congrArg Prod.snd halloc
    exact ⟨by decide +kernel, trivial⟩

end PlantOS.Fs
