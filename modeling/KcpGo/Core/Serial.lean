import Mathlib.Algebra.Group.Nat.Defs
import Mathlib.Algebra.Group.Int.Defs
import Mathlib.Data.List.Nodup
import Mathlib.Data.List.Perm.Subperm

/-!
# Serial numbers: 32-bit counters compared by wrapped difference

Counters of unbounded value are carried modulo 2^32 and compared by the
signed value of their wrapped difference. Two facts make that sound: the
difference of two counters less than 2^31 apart is the difference of their
true values (`diff_ofNat`), and a common shift changes no difference
(`diff_shift`).
-/
namespace KcpGo.Serial

/-- The low 32 bits of a counter. -/
abbrev u32 (n : Nat) : UInt32 := UInt32.ofNat n

theorem toNat_u32 (n : Nat) : (u32 n).toNat = n % 2 ^ 32 := UInt32.toNat_ofNat'

theorem toNat_ofInt (n : Int) : (UInt32.ofInt n).toNat = (n % 2 ^ 32).toNat := by
  unfold UInt32.ofInt
  rw [UInt32.toNat_ofNat']
  omega

theorem toNat_min (a b : UInt32) : (min a b).toNat = min a.toNat b.toNat := by
  have h : min a b = if a ≤ b then a else b := rfl
  rw [h]
  split <;> rename_i hle <;> rw [UInt32.le_iff_toNat_le] at hle <;> omega

theorem toNat_max (a b : UInt32) : (max a b).toNat = max a.toNat b.toNat := by
  have h : max a b = if a ≤ b then b else a := rfl
  rw [h]
  split <;> rename_i hle <;> rw [UInt32.le_iff_toNat_le] at hle <;> omega

/-- `(int32)(later - earlier)`. -/
def diff (later earlier : UInt32) : Int32 := (later - earlier).toInt32

theorem toInt_toInt32 (x : UInt32) :
    x.toInt32.toInt = if x.toNat < 2 ^ 31 then (x.toNat : Int) else (x.toNat : Int) - 2 ^ 32 := by
  have h : x.toInt32.toInt = x.toBitVec.toInt := rfl
  rw [h, BitVec.toInt_eq_toNat_cond]
  have : x.toBitVec.toNat = x.toNat := rfl
  rw [this]; split <;> split <;> omega

theorem diff_nonneg {a b : UInt32} : 0 ≤ diff a b ↔ (a - b).toNat < 2 ^ 31 := by
  have := (a - b).toNat_lt
  rw [Int32.le_iff_toInt_le, diff, toInt_toInt32]
  simp only [Int32.toInt_zero]
  split <;> omega

theorem diff_neg {a b : UInt32} : diff a b < 0 ↔ 2 ^ 31 ≤ (a - b).toNat := by
  have := (a - b).toNat_lt
  rw [Int32.lt_iff_toInt_lt, diff, toInt_toInt32]
  simp only [Int32.toInt_zero]
  split <;> omega

theorem diff_pos {a b : UInt32} : 0 < diff a b ↔ 0 < (a - b).toNat ∧ (a - b).toNat < 2 ^ 31 := by
  have := (a - b).toNat_lt
  rw [Int32.lt_iff_toInt_lt, diff, toInt_toInt32]
  simp only [Int32.toInt_zero]
  split <;> omega

/-- A common shift changes no difference. -/
theorem diff_shift (a b c : UInt32) : diff (a + c) (b + c) = diff a b := by
  unfold diff; congr 1
  rw [← UInt32.toNat_inj]; simp only [UInt32.toNat_sub, UInt32.toNat_add]
  have := a.toNat_lt; have := b.toNat_lt; have := c.toNat_lt; omega

theorem sub_shift (a b c : UInt32) : (a + c) - (b + c) = a - b := by
  rw [← UInt32.toNat_inj]; simp only [UInt32.toNat_sub, UInt32.toNat_add]
  have := a.toNat_lt; have := b.toNat_lt; have := c.toNat_lt; omega

theorem add_right_inj {a b c : UInt32} : a + c = b + c ↔ a = b := by
  constructor
  · intro h
    have := congrArg UInt32.toNat h
    rw [← UInt32.toNat_inj]; simp only [UInt32.toNat_add] at this
    have := a.toNat_lt; have := b.toNat_lt; have := c.toNat_lt; omega
  · rintro rfl; rfl

/-- The wrapped distance of two counters less than 2^32 apart is their distance. -/
theorem sub_u32 {a b : Nat} (h : b ≤ a) (hlt : a - b < 2 ^ 32) : (u32 a - u32 b).toNat = a - b := by
  rw [UInt32.toNat_sub, toNat_u32, toNat_u32]; omega

/-- Below 2^31 apart, the signed wrapped difference is the true difference. -/
theorem diff_ofNat {a b : Nat} (h₁ : (b : Int) - a ≤ 2 ^ 31) (h₂ : (a : Int) - b < 2 ^ 31) :
    (diff (u32 a) (u32 b)).toInt = (a : Int) - b := by
  rw [diff, toInt_toInt32, UInt32.toNat_sub, toNat_u32, toNat_u32]
  split <;> omega

theorem u32_inj {a b : Nat} (h : u32 a = u32 b) (h₁ : a < b + 2 ^ 32) (h₂ : b < a + 2 ^ 32) :
    a = b := by
  have := congrArg UInt32.toNat h
  rw [toNat_u32, toNat_u32] at this; omega

theorem u32_succ (n : Nat) : u32 n + 1 = u32 (n + 1) := by
  rw [← UInt32.toNat_inj, UInt32.toNat_add, toNat_u32, toNat_u32, UInt32.toNat_one]; omega

theorem u32_add (n m : Nat) : u32 n + u32 m = u32 (n + m) := by
  rw [← UInt32.toNat_inj, UInt32.toNat_add, toNat_u32, toNat_u32, toNat_u32]; omega

theorem u32_add_cancel {x : UInt32} {a b : Nat} (h : x + u32 a = x + u32 b) (ha : a < 2 ^ 32)
    (hb : b < 2 ^ 32) : a = b := by
  have := congrArg UInt32.toNat h
  simp only [UInt32.toNat_add, toNat_u32] at this
  have := x.toNat_lt; omega

theorem add_u32_sub (x : UInt32) {n : Nat} (hn : n < 2 ^ 32) : (x + u32 n - x).toNat = n := by
  rw [UInt32.toNat_sub, UInt32.toNat_add, toNat_u32]
  have := x.toNat_lt; omega

theorem add_u32_assoc (x : UInt32) (a b : Nat) : x + u32 a + u32 b = x + u32 (a + b) := by
  rw [UInt32.add_assoc, u32_add]

theorem add_u32_succ (x : UInt32) (n : Nat) : x + 1 + u32 n = x + u32 (n + 1) := by
  rw [← u32_succ, UInt32.add_assoc, UInt32.add_comm 1]

/-! ## Consecutive numbers -/

section
variable {α β : Type}
variable {f : α → UInt32}

/-- The numbers `f` gives the elements of a list are `b`, `b + 1`, … -/
def Consec (f : α → UInt32) : UInt32 → List α → Prop
  | _, [] => True
  | b, x :: l => f x = b ∧ Consec f (b + 1) l

theorem consec_iff {l : List α} {b : UInt32} :
    Consec f b l ↔ ∀ i x, l[i]? = some x → f x = b + u32 i := by
  induction l generalizing b with
  | nil => simp [Consec]
  | cons y l ih =>
    rw [Consec, ih]
    constructor
    · rintro ⟨hy, hl⟩ i x hx
      cases i with
      | zero =>
        simp only [List.getElem?_cons_zero, Option.some.injEq] at hx
        subst hx; simpa using hy
      | succ i =>
        rw [← add_u32_succ]
        exact hl i x (by simpa using hx)
    · intro h
      refine ⟨by simpa using h 0 y rfl, fun i x hx => ?_⟩
      rw [add_u32_succ]
      exact h (i + 1) x (by simpa using hx)

theorem Consec.drop {l : List α} {b : UInt32} (h : Consec f b l) (n : Nat) :
    Consec f (b + u32 n) (l.drop n) := by
  rw [consec_iff] at h ⊢
  intro i x hx
  rw [add_u32_assoc]
  exact h (n + i) x (by simpa using hx)

theorem Consec.append {l l' : List α} {b : UInt32} (h : Consec f b l)
    (h' : Consec f (b + u32 l.length) l') : Consec f b (l ++ l') := by
  induction l generalizing b with
  | nil => simpa using h'
  | cons x l ih =>
    refine ⟨h.1, ih h.2 ?_⟩
    rw [add_u32_succ]
    simpa using h'

theorem Consec.map_eq {l : List α} {b : UInt32} (h : Consec f b l) :
    l.map f = (List.range l.length).map fun i => b + u32 i := by
  rw [consec_iff] at h
  apply List.ext_getElem?
  intro i
  by_cases hi : i < l.length
  · simp [hi, h i l[i] (List.getElem?_eq_getElem hi)]
  · simp [hi]

theorem Consec.nodup {l : List α} {b : UInt32} (h : Consec f b l) (hlen : l.length ≤ 2 ^ 32) :
    (l.map f).Nodup := by
  rw [h.map_eq]
  refine List.Nodup.map_on (fun i hi j hj he => ?_) List.nodup_range
  rw [List.mem_range] at hi hj
  exact u32_add_cancel he (by omega) (by omega)

/-- The number determines the position. -/
theorem Consec.index {l : List α} {b : UInt32} (h : Consec f b l) {i j : Nat} {x y : α}
    (hx : l[i]? = some x) (hy : l[j]? = some y) (hlen : l.length ≤ 2 ^ 32) (he : f x = f y) : i = j := by
  have h1 := consec_iff.mp h i x hx
  have h2 := consec_iff.mp h j y hy
  obtain ⟨hi, -⟩ := List.getElem?_eq_some_iff.mp hx
  obtain ⟨hj, -⟩ := List.getElem?_eq_some_iff.mp hy
  exact u32_add_cancel (h1.symm.trans (he.trans h2)) (by omega) (by omega)

end

/-! ## Distances from another place -/

theorem toNat_sub_sub (x n u : UInt32) : (x - (n - u)).toNat = ((x - n).toNat + u.toNat) % 2 ^ 32 := by
  have h : x - (n - u) = x - n + u := by grind
  rw [h, UInt32.toNat_add]

theorem toNat_sub_add (x n u : UInt32) : (x - (n + u)).toNat = (2 ^ 32 - u.toNat + (x - n).toNat) % 2 ^ 32 := by
  have h : x - (n + u) = x - n - u := by grind
  rw [h, UInt32.toNat_sub]

theorem toNat_sub_rebase (x n c : UInt32) : (x - n).toNat = (2 ^ 32 - (n - c).toNat + (x - c).toNat) % 2 ^ 32 := by
  have h : x - n = x - c - (n - c) := by grind
  rw [h, UInt32.toNat_sub]

/-! ## Spaced numbers -/

/-- Distinct numbers of the list are at least `z` apart, in both directions. -/
def Spaced (z : Nat) (l : List UInt32) : Prop := ∀ a ∈ l, ∀ b ∈ l, a ≠ b → z ≤ (a - b).toNat

/-- An arc of `m * z` numbers has room for `m` of them. -/
theorem Spaced.length_le {z m : Nat} {l : List UInt32} (h : Spaced z l) (hn : l.Nodup) (c : UInt32)
    (hc : ∀ a ∈ l, (a - c).toNat < m * z) : l.length ≤ m := by
  have hsub : l.map (fun a => (a - c).toNat / z) ⊆ List.range m := by
    intro q hq
    obtain ⟨a, ha, rfl⟩ := List.mem_map.mp hq
    exact List.mem_range.mpr (Nat.div_lt_of_lt_mul (Nat.mul_comm m z ▸ hc a ha))
  have hnodup : (l.map fun a => (a - c).toNat / z).Nodup := by
    refine List.Nodup.map_on (fun a ha b hb he => ?_) hn
    by_contra hne
    have h1 := h a ha b hb hne
    have h2 := h b hb a ha (Ne.symm hne)
    rcases Nat.eq_zero_or_pos z with rfl | hz
    · have := hc a ha
      omega
    have h3 := Nat.div_add_mod (a - c).toNat z
    have h4 := Nat.div_add_mod (b - c).toNat z
    have h5 := Nat.mod_lt (a - c).toNat hz
    have h6 := Nat.mod_lt (b - c).toNat hz
    rw [he] at h3
    generalize z * ((b - c).toNat / z) = q at h3 h4
    simp only [UInt32.toNat_sub] at h1 h2 h3 h4 h5 h6
    have := a.toNat_lt
    have := b.toNat_lt
    have := c.toNat_lt
    omega
  have := (List.subperm_of_subset hnodup hsub).length_le
  simpa using this

end KcpGo.Serial
