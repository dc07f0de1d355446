import KcpGo.Core.Serial

/-!
# Blocks of sequence ids around a 32-bit circle

Sequence ids come in blocks of `size` and start again at 0 after `count`
blocks, a little before 2^32. `place` lays the blocks out on a line: it is the
start of a block modulo 2^32, and between epochs it skips the ids that are
never used.

* `place_le`, `le_place`, `place_within`: how far apart two blocks are.
* `place_inj`: blocks of one number less than 2^32 apart are the same.
-/
namespace KcpGo

open Serial

section
variable {d g r : Nat}

theorem block_div (hr : r < d) : (g * d + r) / d = g := by
  rw [Nat.add_comm, Nat.add_mul_div_right _ _ (by omega), Nat.div_eq_of_lt hr, Nat.zero_add]

theorem block_mod (hr : r < d) : (g * d + r) % d = r := by
  rw [Nat.mul_add_mod_self_right, Nat.mod_eq_of_lt hr]

end

structure Epoch where
  size : Nat
  count : Nat
  size_pos : 0 < size
  count_pos : 0 < count
  fits : count * size ≤ 2 ^ 32
  tight : 2 ^ 32 ≤ count * size + size

namespace Epoch

/-- Where block `g` starts. -/
def place (e : Epoch) (g : Nat) : Nat := g * e.size + g / e.count * (2 ^ 32 - e.count * e.size)

variable (e : Epoch)

theorem place_eq (g : Nat) : e.place g = g / e.count * 2 ^ 32 + g % e.count * e.size := by
  have hg : g * e.size = g / e.count * (e.count * e.size) + g % e.count * e.size := by
    rw [← Nat.mul_assoc, ← Nat.add_mul, Nat.mul_comm (g / e.count), Nat.div_add_mod]
  have hsplit : g / e.count * 2 ^ 32 =
      g / e.count * (e.count * e.size) + g / e.count * (2 ^ 32 - e.count * e.size) := by
    rw [← Nat.mul_add, Nat.add_sub_cancel' e.fits]
  rw [place, hg, hsplit]
  omega

/-- The start of a block as the 32-bit arithmetic has it. -/
theorem u32_place (g : Nat) : u32 (e.place g) = u32 (g % e.count * e.size) := by
  rw [← UInt32.toNat_inj, toNat_u32, toNat_u32, place_eq, Nat.mul_add_mod_self_right]

theorem le_place {g h : Nat} (hle : g ≤ h) : e.place g + (h - g) * e.size ≤ e.place h := by
  have hdiv := Nat.mul_le_mul_right (2 ^ 32 - e.count * e.size) (Nat.div_le_div_right (c := e.count) hle)
  have hmul : (h - g) * e.size = h * e.size - g * e.size := Nat.sub_mul _ _ _
  have := Nat.mul_le_mul_right e.size hle
  unfold place
  omega

/-- Within one epoch's length at most one gap is crossed. -/
theorem place_le {g h : Nat} (hle : g ≤ h) (hnear : h ≤ g + e.count) :
    e.place h ≤ e.place g + (h - g) * e.size + e.size := by
  have hgap : 2 ^ 32 - e.count * e.size ≤ e.size := by
    have := e.tight
    omega
  have hdiv : h / e.count ≤ g / e.count + 1 := by
    rw [← Nat.add_div_right g e.count_pos]
    exact Nat.div_le_div_right hnear
  have hcross := Nat.mul_le_mul_right (2 ^ 32 - e.count * e.size) hdiv
  rw [Nat.add_mul, Nat.one_mul] at hcross
  have hmul : (h - g) * e.size = h * e.size - g * e.size := Nat.sub_mul _ _ _
  have := Nat.mul_le_mul_right e.size hle
  unfold place
  omega

/-- Two blocks are no further apart than their numbers exactly when no gap lies between them. -/
theorem place_within {g h : Nat} (hle : g ≤ h) (hgap : e.count * e.size < 2 ^ 32) :
    e.place h ≤ e.place g + (h - g) * e.size ↔ g / e.count = h / e.count := by
  have hmul : (h - g) * e.size = h * e.size - g * e.size := Nat.sub_mul _ _ _
  have hsize := Nat.mul_le_mul_right e.size hle
  unfold place
  constructor
  · intro hwithin
    by_contra hne
    have hlt := Nat.lt_of_le_of_ne (Nat.div_le_div_right (c := e.count) hle) hne
    have hcross := Nat.mul_le_mul_right (2 ^ 32 - e.count * e.size) hlt
    rw [Nat.succ_mul] at hcross
    omega
  · intro heq
    rw [heq]
    omega

theorem place_mono {g h : Nat} (hle : g ≤ h) : e.place g ≤ e.place h :=
  Nat.le_trans (Nat.le_add_right _ _) (e.le_place hle)

theorem place_lt {g h : Nat} (hlt : g < h) : e.place g < e.place h := by
  have h1 := e.le_place (Nat.le_of_lt hlt)
  have h2 := Nat.mul_le_mul_right e.size (show 1 ≤ h - g by omega)
  have h3 := e.size_pos
  omega

theorem place_inj {g h : Nat} (hmod : g % e.count = h % e.count) (h₁ : e.place g < e.place h + 2 ^ 32)
    (h₂ : e.place h < e.place g + 2 ^ 32) : g = h := by
  have hdiv : g / e.count = h / e.count := by
    rw [place_eq, place_eq, hmod] at h₁ h₂
    omega
  rw [← Nat.div_add_mod g e.count, hdiv, hmod, Nat.div_add_mod]

/-- Id `u` is in block `u / size`, and so is its wrapped value. -/
theorem wrap_div (u : Nat) : u % (e.count * e.size) / e.size = u / e.size % e.count := by
  rw [Nat.mul_comm, Nat.mod_mul_right_div_self]

theorem wrap_mod (u : Nat) : u % (e.count * e.size) % e.size = u % e.size :=
  Nat.mod_mod_of_dvd _ (Nat.dvd_mul_left _ _)

end Epoch
end KcpGo
