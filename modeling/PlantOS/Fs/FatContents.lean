import PlantOS.Common.Slice

/-!
# The contents of a file on the FAT volume

A regular file with a descriptor open on it, by the data of its clusters one after the other, in the order of
the chain. This is what `fat_open`, `fat_write` and `fat_close` see of a well-formed volume when the reads and
writes of sectors succeed and there are free clusters. The current cluster is given by its number in the
chain; a number behind the last one is the end of the chain.

`fat_write` reads, changes and writes back one cluster after the other. In terms of the contents, it
overwrites them from the offset of the descriptor on (`FatContents.write_spec`).

Reference: `fat_open`, `fat_write` and `fat_close` in `fs/fat.c`.
-/

namespace PlantOS.Fs

open Bytes

/-- A file with a descriptor. -/
structure FatContents where
  data : List UInt8
  clusters : ℕ
  size : ℕ
  offset : ℕ
  current : ℕ

namespace FatContents

/-- The contents of the file. -/
def bytes (f : FatContents) : List UInt8 := f.data.take f.size

/-- The descriptor after `fat_open` without truncation. -/
def opened (f : FatContents) : FatContents := { f with offset := 0, current := 0 }

/-- A new cluster at the end of the chain, if it is reached. The first cluster of an empty file is allocated
in the same way. -/
def extend (f : FatContents) (new : List UInt8) : FatContents :=
  if f.current < f.clusters then f
  else { f with data := f.data ++ new, clusters := f.clusters + 1, current := f.clusters }

/-- A round of `fat_write` that copies `x` into the current cluster, of `cb` bytes. -/
def put (cb : ℕ) (f : FatContents) (x : List UInt8) : FatContents :=
  let cbuf := splice (slice f.data (f.current * cb) cb) (f.offset % cb) x
  let offset := f.offset + x.length
  { f with
    data := splice f.data (f.current * cb) cbuf
    offset := offset
    size := max f.size offset
    current := if offset % cb = 0 then f.current + 1 else f.current }

/-- The loop of `fat_write` over at most `n` rounds; `new` is the data of a new cluster. -/
def writeLoop (cb : ℕ) (new : ℕ → List UInt8) : ℕ → FatContents → List UInt8 → FatContents
  | 0, f, _ => f
  | n + 1, f, src =>
    if src = [] then f
    else
      let f := f.extend (new f.clusters)
      let k := cb - f.offset % cb
      writeLoop cb new n (f.put cb (src.take k)) (src.drop k)

/-- `fat_write`. A round copies at least one byte. -/
def write (cb : ℕ) (new : ℕ → List UInt8) (f : FatContents) (src : List UInt8) : FatContents :=
  writeLoop cb new src.length f src

/-- The data is that of the clusters, and the descriptor stands on the cluster of its offset. -/
structure Wf (cb : ℕ) (f : FatContents) : Prop where
  length_data : f.data.length = f.clusters * cb
  size_le : f.size ≤ f.data.length
  offset_le : f.offset ≤ f.size
  current_eq : f.current = f.offset / cb

section

variable {α : Type*} {l x y : List α} {off : ℕ}

theorem splice_nil : splice l off [] = l := by
  rw [splice, List.append_nil, List.length_nil, Nat.add_zero, List.take_append_drop]

/-- Writing back a part after a change in it is making the change. -/
theorem splice_splice_slice {k n : ℕ} (hn : off + n ≤ l.length) (hk : k + x.length ≤ n) :
    splice l off (splice (slice l off n) k x) = splice l (off + k) x := by
  have hlen := length_slice hn
  refine List.ext_getElem? fun j => ?_
  rw [getElem?_splice (by omega), getElem?_splice (by omega), length_splice (by omega), hlen,
    getElem?_splice (by omega), getElem?_slice]
  split_ifs <;> first | rfl | omega | (congr 1; omega)

/-- Two writes, the second behind the first. -/
theorem splice_splice_append (h : off ≤ l.length) :
    splice (splice l off x) (off + x.length) y = splice l off (x ++ y) := by
  have hlen : off + x.length ≤ (splice l off x).length := by
    simp only [splice, List.length_append, List.length_take]
    omega
  refine List.ext_getElem? fun j => ?_
  rw [getElem?_splice hlen, getElem?_splice h, getElem?_splice h, List.length_append, List.getElem?_append]
  split_ifs <;> first | rfl | omega | (congr 1; omega)

/-- Of a write into the data of a file, the contents are a write into the contents. -/
theorem take_splice {n : ℕ} (h : off ≤ n) (hn : n ≤ l.length) :
    (splice l off x).take (max n (off + x.length)) = splice (l.take n) off x := by
  have hlen : (l.take n).length = n := by rw [List.length_take, Nat.min_eq_left hn]
  refine List.ext_getElem? fun j => ?_
  rw [List.getElem?_take, getElem?_splice (by omega), getElem?_splice (by omega), List.getElem?_take]
  split_ifs <;> first | rfl | omega

end

variable {cb : ℕ} {f : FatContents}

theorem Wf.extend (h : f.Wf cb) (hcb : 0 < cb) {new : List UInt8} (hnew : new.length = cb) :
    (f.extend new).Wf cb ∧ (f.extend new).bytes = f.bytes ∧ (f.extend new).offset = f.offset ∧
      (f.extend new).current < (f.extend new).clusters := by
  rw [FatContents.extend]
  split
  · exact ⟨h, rfl, rfl, ‹_›⟩
  · rename_i hend
    have hsize := h.size_le
    have hcur : f.clusters = f.offset / cb := by
      have hle : f.offset / cb ≤ f.clusters :=
        Nat.div_le_of_le_mul (by rw [Nat.mul_comm, ← h.length_data]; exact Nat.le_trans h.offset_le hsize)
      have := h.current_eq
      omega
    refine ⟨⟨?_, ?_, h.offset_le, hcur⟩, List.take_append_of_le_length hsize, rfl, Nat.lt_succ_self _⟩
    · dsimp only
      rw [List.length_append, h.length_data, hnew, Nat.add_mul, Nat.one_mul]
    · dsimp only
      rw [List.length_append]
      omega

theorem Wf.put (h : f.Wf cb) (hcb : 0 < cb) (hcur : f.current < f.clusters) {x : List UInt8}
    (hne : 0 < x.length) (hx : f.offset % cb + x.length ≤ cb) :
    (f.put cb x).Wf cb ∧ (f.put cb x).bytes = splice f.bytes f.offset x ∧
      (f.put cb x).offset = f.offset + x.length := by
  have hdiv := Nat.div_add_mod f.offset cb
  have hoff : f.current * cb + f.offset % cb = f.offset := by rw [h.current_eq, Nat.mul_comm, hdiv]
  have hroom : f.current * cb + cb ≤ f.data.length := by
    rw [h.length_data, ← Nat.succ_mul]
    exact Nat.mul_le_mul_right cb hcur
  have hdata : (f.put cb x).data = splice f.data f.offset x := by
    rw [FatContents.put]
    dsimp only
    rw [splice_splice_slice hroom hx, hoff]
  have hlen : (f.put cb x).data.length = f.data.length := by
    rw [hdata, length_splice (by omega)]
  have hsize := h.size_le
  refine ⟨⟨hlen.trans h.length_data, ?_, Nat.le_max_right _ _, ?_⟩, ?_, rfl⟩
  · rw [hlen]
    exact Nat.max_le.2 ⟨hsize, by omega⟩
  · -- the offset leaves the cluster exactly when it reaches the end of it
    have hnext : f.offset + x.length = cb * f.current + (f.offset % cb + x.length) := by
      rw [Nat.mul_comm]
      omega
    rw [FatContents.put]
    dsimp only
    rw [hnext, Nat.mul_add_mod, Nat.mul_add_div hcb]
    by_cases hfull : f.offset % cb + x.length = cb
    · rw [hfull, Nat.mod_self, if_pos rfl, Nat.div_self hcb]
    · have hlt : f.offset % cb + x.length < cb := by omega
      rw [Nat.mod_eq_of_lt hlt, if_neg (by omega), Nat.div_eq_of_lt hlt, Nat.add_zero]
  · rw [bytes, hdata]
    exact take_splice h.offset_le hsize

/-- The loop of `fat16_write`, cluster by cluster: the bytes go over what was at the offset. -/
theorem writeLoop_spec {new : ℕ → List UInt8} (hcb : 0 < cb) (hnew : ∀ n, (new n).length = cb) {n : ℕ}
    {src : List UInt8} (hn : src.length ≤ n) (h : f.Wf cb) :
    (writeLoop cb new n f src).Wf cb ∧
      (writeLoop cb new n f src).bytes = splice f.bytes f.offset src ∧
      (writeLoop cb new n f src).offset = f.offset + src.length := by
  induction n generalizing f src with
  | zero =>
    obtain rfl := List.eq_nil_of_length_eq_zero (Nat.le_zero.1 hn)
    exact ⟨h, splice_nil.symm, rfl⟩
  | succ n ih =>
    rw [writeLoop]
    split
    · subst src
      exact ⟨h, splice_nil.symm, rfl⟩
    · rename_i hsrc
      have hpos := List.length_pos_iff.2 hsrc
      obtain ⟨hext, hbytes, hoff, hcur⟩ := h.extend hcb (hnew f.clusters)
      have hmod := Nat.mod_lt (f.extend (new f.clusters)).offset hcb
      have htake := @List.length_take _ (cb - (f.extend (new f.clusters)).offset % cb) src
      obtain ⟨hput, hbytes', hoff'⟩ := hext.put hcb hcur (by rw [htake]; omega) (by rw [htake]; omega)
      obtain ⟨hwf, hrest, hend⟩ := @ih _ (src.drop (cb - (f.extend (new f.clusters)).offset % cb))
        (by rw [List.length_drop]; omega) hput
      refine ⟨hwf, ?_, ?_⟩
      · dsimp only
        rw [hrest, hbytes', hoff', splice_splice_append, List.take_append_drop, hbytes, hoff]
        rw [bytes, List.length_take]
        have := hext.offset_le
        have := hext.size_le
        omega
      · dsimp only
        rw [hend, hoff', hoff, List.length_drop, List.length_take]
        omega

/-- `fat_write` overwrites the contents from the offset on. -/
theorem write_spec {new : ℕ → List UInt8} (hcb : 0 < cb) (hnew : ∀ n, (new n).length = cb)
    (h : f.Wf cb) (src : List UInt8) :
    (f.write cb new src).Wf cb ∧ (f.write cb new src).bytes = splice f.bytes f.offset src ∧
      (f.write cb new src).offset = f.offset + src.length :=
  writeLoop_spec hcb hnew (Nat.le_refl _) h

end FatContents

end PlantOS.Fs
