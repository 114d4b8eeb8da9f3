import PlantOS.Common.ByteMemory
import PlantOS.Fs.ElfLoader
import PlantOS.Mm.VmmFrames

/-!
# The bytes of a page

The memory of the model consists of 64-bit words. `pageByte` is the view of a page as bytes, in which storing
a byte or a word is an update of one byte or of eight.
-/

namespace PlantOS.Fs

open PlantOS.Mm Memory

/-- Byte `off` of the page `phys`. -/
def pageByte (vm : Vm) (phys off : ℕ) : UInt8 := UInt8.ofNat (vm.mem phys (off / 8) / 256 ^ (off % 8))

/-- Replacing one digit of a number leaves its other digits. -/
theorem digit_replace (w i j b : ℕ) (hb : b < 256) :
    (w - w / 256 ^ i % 256 * 256 ^ i + b * 256 ^ i) / 256 ^ j % 256 =
      if j = i then b else w / 256 ^ j % 256 := by
  have hpos : ∀ k, 0 < 256 ^ k := fun k => Nat.pow_pos (by decide)
  have hlo : w % 256 ^ i < 256 ^ i := Nat.mod_lt w (hpos i)
  -- the number with the digit `d` in this place
  let f : ℕ → ℕ := fun d => w % 256 ^ i + 256 ^ i * (d + 256 * (w / 256 ^ i / 256))
  have hw : w = f (w / 256 ^ i % 256) := by
    simp only [f, Nat.mod_add_div]
  have hnew : w - w / 256 ^ i % 256 * 256 ^ i + b * 256 ^ i = f b := by
    have hf : ∀ d, f d = f 0 + d * 256 ^ i := fun d => by simp only [f]; ring
    rw [hf b, ← Nat.eq_sub_of_add_eq ((hf _).symm.trans hw.symm)]
  rw [hnew]
  have hdiv : ∀ d, f d / 256 ^ i = d + 256 * (w / 256 ^ i / 256) := fun d => by
    rw [Nat.add_mul_div_left _ _ (hpos i), Nat.div_eq_of_lt hlo, Nat.zero_add]
  split_ifs with h
  · rw [h, hdiv]
    omega
  conv_rhs => rw [hw]
  obtain hlt | hlt := lt_or_gt_of_ne h
  · obtain ⟨k, rfl⟩ := Nat.exists_eq_add_of_lt hlt
    have hlow : ∀ d, f d / 256 ^ j % 256 = w % 256 ^ (j + k + 1) / 256 ^ j % 256 := fun d => by
      have hf : f d = w % 256 ^ (j + k + 1) +
          256 ^ j * (256 * (256 ^ k * (d + 256 * (w / 256 ^ (j + k + 1) / 256)))) := by
        simp only [f]
        ring
      rw [hf, Nat.add_mul_div_left _ _ (hpos j), Nat.add_mul_mod_self_left]
    rw [hlow, hlow]
  · obtain ⟨k, rfl⟩ := Nat.exists_eq_add_of_lt hlt
    have hhigh : ∀ d < 256, f d / 256 ^ (i + k + 1) = w / 256 ^ i / 256 / 256 ^ k := fun d hd => by
      rw [add_assoc, add_comm k, pow_add, pow_add, pow_one, ← Nat.div_div_eq_div_mul,
        ← Nat.div_div_eq_div_mul, hdiv, Nat.add_mul_div_left _ _ (by decide), Nat.div_eq_of_lt hd,
        Nat.zero_add]
    rw [hhigh b hb, hhigh _ (Nat.mod_lt _ (by decide))]

variable {vm : Vm} {phys off : ℕ}

theorem pageByte_set_ne {t : ℕ} (h : phys ≠ t) (i w : ℕ) : pageByte (vm.set t i w) phys = pageByte vm phys :=
  funext fun off => by rw [pageByte, pageByte, Vm.mem_set_ne h]

/-- `writeByte` stores one byte of the page. -/
theorem pageByte_writeByte (hal : phys % 4096 = 0) (hoff : off < 4096) (b : UInt8) :
    pageByte (writeByte vm (phys + off) b) phys = Function.update (pageByte vm phys) off b := by
  have hpage : (phys + off) / 4096 * 4096 = phys := by omega
  have hword : (phys + off) % 4096 / 8 = off / 8 := by omega
  have hbyte : (phys + off) % 8 = off % 8 := by omega
  funext x
  rw [writeByte, hpage, hword, hbyte, pageByte, Vm.mem_set_self, Function.update_apply, Function.update_apply]
  by_cases hx : x / 8 = off / 8
  · have hdigit := digit_replace (vm.mem phys (off / 8)) (off % 8) (x % 8) b.toNat b.toNat_lt
    rw [if_pos hx, UInt8.ofNat_eq_iff_mod_eq_toNat]
    refine hdigit.trans ?_
    by_cases heq : x = off
    · rw [heq, if_pos rfl, if_pos rfl]
    · rw [if_neg (by omega), if_neg heq, pageByte, hx, UInt8.toNat_ofNat']
  · rw [if_neg hx, if_neg (by rintro rfl; exact hx rfl), pageByte]

/-- A word of the page is eight of its bytes. -/
theorem pageByte_set (h8 : off % 8 = 0) (w : ℕ) :
    pageByte (vm.set phys (off / 8) w) phys = store64 (pageByte vm phys) off w := by
  funext x
  rw [pageByte, Vm.mem_set_self, Function.update_apply, store64]
  by_cases hx : off ≤ x ∧ x < off + 8
  · have hbyte : x - off = x % 8 := by omega
    rw [if_pos (by omega), if_pos hx, hbyte, Bytes.toLe_getD (by omega)]
  · rw [if_neg (by omega), if_neg hx, pageByte]

end PlantOS.Fs
