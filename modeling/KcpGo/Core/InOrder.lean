import KcpGo.Core.Serial
import Mathlib.Data.Int.CardIntervalMod
import Mathlib.Data.List.Perm.Basic

/-!
# Numbered items received without a gap

Items carry the low 32 bits of their number and are kept in the order they
come in, each number once. Then the item with the number `i` is the
`i / 2^32`-th of those that show it (`keptAt`), and `inOrder` is the sequence
from 0 up to the first number that is missing.

A receiver splits what it has kept: `done` in order, and a buffer. `run` is
the part of the buffer that continues `done`.

* `inOrder_eq`: `inOrder log = done ++ run`, when `log` and `done` with the
  buffer agree on every number (`Agrees`).
-/
namespace KcpGo.InOrder

open KcpGo.Serial

variable {α : Type} (f : α → UInt32)

/-- The items that show the number `n`. -/
def showing (n : UInt32) (l : List α) : List α := l.filter fun x => decide (f x = n)

def keptAt (log : List α) (i : Nat) : Option α := (showing f (u32 i) log)[i / 2 ^ 32]?

def inOrderFrom (log : List α) : Nat → Nat → List α
  | 0, _ => []
  | n + 1, i =>
    match keptAt f log i with
    | none => []
    | some x => x :: inOrderFrom log n (i + 1)

/-- What `log` has without a gap, from 0 on. -/
def inOrder (log : List α) : List α := inOrderFrom f log log.length 0

def runFrom (l : List α) : Nat → UInt32 → List α
  | 0, _ => []
  | n + 1, sn =>
    match l.find? fun x => decide (f x = sn) with
    | none => []
    | some x => x :: runFrom l n (sn + 1)

/-- The items of a buffer that are numbered from `sn` on without a gap. -/
def run (l : List α) (sn : UInt32) : List α := runFrom f l l.length sn

/-- The same items in the same order under every number. -/
def Agrees (l m : List α) : Prop := ∀ n, showing f n l = showing f n m

section
variable {f}
variable {l m log all rest : List α}

@[simp] theorem showing_append (n : UInt32) (l m : List α) : showing f n (l ++ m) = showing f n l ++ showing f n m :=
  List.filter_append l m

theorem showing_cons {n : UInt32} {x : α} (h : f x = n) (l : List α) : showing f n (x :: l) = x :: showing f n l :=
  List.filter_cons_of_pos (by simpa using h)

theorem mem_showing {n : UInt32} {x : α} : x ∈ showing f n l ↔ x ∈ l ∧ f x = n := by
  simp [showing]

theorem Agrees.refl (l : List α) : Agrees f l l := fun _ => rfl

theorem Agrees.trans {k : List α} (h : Agrees f l m) (h' : Agrees f m k) : Agrees f l k :=
  fun n => (h n).trans (h' n)

theorem Agrees.symm (h : Agrees f l m) : Agrees f m l := fun n => (h n).symm

theorem Agrees.append {l' m' : List α} (h : Agrees f l m) (h' : Agrees f l' m') : Agrees f (l ++ l') (m ++ m') := by
  intro n
  rw [showing_append, showing_append, h n, h' n]

theorem showing_perm {n : UInt32} (h : l.Perm m) : (showing f n l).Perm (showing f n m) := h.filter _

/-- One item at most under each number. -/
theorem showing_length_le (h : (l.map f).Nodup) (n : UInt32) : (showing f n l).length ≤ 1 := by
  have hcount : (showing f n l).length = (l.map f).count n := by
    rw [showing, ← List.countP_eq_length_filter, List.count, List.countP_map]
    rfl
  rw [hcount]
  exact List.nodup_iff_count_le_one.mp h n

theorem eq_of_perm_of_length_le (h : l.Perm m) (hlen : l.length ≤ 1) : l = m := by
  match l, hlen with
  | [], _ => exact (List.nil_perm.mp h).symm
  | [x], _ => exact List.singleton_perm.mp h

/-- Without repeats the order does not matter. -/
theorem Agrees.of_perm (h : l.Perm m) (hl : (l.map f).Nodup) : Agrees f l m :=
  fun n => eq_of_perm_of_length_le (showing_perm h) (showing_length_le hl n)

theorem showing_diff [DecidableEq α] (n : UInt32) (l m : List α) :
    showing f n (l.diff m) = (showing f n l).diff (showing f n m) := by
  induction m generalizing l with
  | nil => rfl
  | cons x m ih =>
    rw [List.diff_cons, ih]
    have herase : showing f n (l.erase x) = (showing f n l).erase x := (List.erase_filter ..).symm
    rw [herase]
    by_cases hx : f x = n
    · rw [showing_cons hx, List.diff_cons]
    · have hl : (showing f n l).erase x = showing f n l := List.erase_of_not_mem fun hm => hx (mem_showing.mp hm).2
      have hm : showing f n (x :: m) = showing f n m := List.filter_cons_of_neg (by simpa using hx)
      rw [hl, hm]

/-- What `m` has more than `l`. -/
theorem Agrees.diff [DecidableEq α] {new : List α} (h : Agrees f m (l ++ new)) : Agrees f (m.diff l) new := by
  intro n
  rw [showing_diff, h, showing_append]
  generalize showing f n l = a
  induction a with
  | nil => rfl
  | cons x a ih => rw [List.cons_append, List.diff_cons, List.erase_cons_head, ih]

/-! ## Consecutive items -/

/-- Among the first `n` numbers, `n / 2^32` look like `n`. -/
theorem showing_consec_length (h : Consec f 0 l) : (showing f (u32 l.length) l).length = l.length / 2 ^ 32 := by
  have hmap : l.map f = (List.range l.length).map u32 := by
    rw [h.map_eq]
    simp
  have hcount : (showing f (u32 l.length) l).length = (List.range l.length).countP fun i =>
      decide (u32 i = u32 l.length) := by
    have : (showing f (u32 l.length) l).length = (l.map f).countP fun x => decide (x = u32 l.length) := by
      rw [showing, ← List.countP_eq_length_filter, List.countP_map]
      rfl
    rw [this, hmap, List.countP_map]
    rfl
  have hmod : ∀ i, u32 i = u32 l.length ↔ i ≡ l.length [MOD 2 ^ 32] := by
    intro i
    rw [← UInt32.toNat_inj, toNat_u32, toNat_u32]
    rfl
  have hnat : (List.range l.length).countP (fun i => decide (u32 i = u32 l.length)) =
      l.length.count (· ≡ l.length [MOD 2 ^ 32]) := by
    unfold Nat.count
    congr 1
    funext i
    exact decide_eq_decide.mpr (hmod i)
  rw [hcount, hnat, Nat.count_modEq_card _ (by decide)]
  simp

theorem Consec.take {b : UInt32} (h : Consec f b l) (n : Nat) : Consec f b (l.take n) := by
  rw [consec_iff] at h ⊢
  intro i x hx
  rw [List.getElem?_take] at hx
  split at hx
  · exact h i x hx
  · cases hx

/-- The item at `i` is the one kept under `i`. -/
theorem keptAt_eq (h : Agrees f log (all ++ rest)) (hall : Consec f 0 all) {i : Nat} (hi : i < all.length) :
    keptAt f log i = all[i]? := by
  have hsplit : all = all.take i ++ all[i] :: all.drop (i + 1) := by simp
  have htake : (all.take i).length = i := List.length_take_of_le (Nat.le_of_lt hi)
  have hcount := showing_consec_length (Consec.take hall i)
  rw [htake] at hcount
  have hnum : f all[i] = u32 i := by
    have := consec_iff.mp hall i all[i] (List.getElem?_eq_getElem hi)
    simpa using this
  have hshow : showing f (u32 i) log = showing f (u32 i) (all.take i) ++
      all[i] :: (showing f (u32 i) (all.drop (i + 1)) ++ showing f (u32 i) rest) := by
    rw [h, showing_append]
    conv_lhs => rw [hsplit]
    rw [showing_append, showing_cons hnum, List.append_assoc, List.cons_append]
  rw [keptAt, hshow, List.getElem?_append_right (Nat.le_of_eq hcount), hcount, Nat.sub_self, List.getElem?_cons_zero,
    List.getElem?_eq_getElem hi]

/-- Nothing is kept under the number that is missing. -/
theorem keptAt_end (h : Agrees f log (all ++ rest)) (hall : Consec f 0 all)
    (hrest : ∀ x ∈ rest, f x ≠ u32 all.length) : keptAt f log all.length = none := by
  have hnone : showing f (u32 all.length) rest = [] := by
    rw [showing, List.filter_eq_nil_iff]
    intro x hx
    simpa using hrest x hx
  rw [keptAt, h, showing_append, hnone, List.append_nil, List.getElem?_eq_none_iff, showing_consec_length hall]

theorem inOrderFrom_eq (h : Agrees f log (all ++ rest)) (hall : Consec f 0 all)
    (hrest : ∀ x ∈ rest, f x ≠ u32 all.length) : ∀ {n i : Nat}, i ≤ all.length → all.length - i ≤ n →
      inOrderFrom f log n i = all.drop i := by
  intro n
  induction n with
  | zero =>
    intro i hi hn
    rw [inOrderFrom, List.drop_of_length_le (by omega)]
  | succ n ih =>
    intro i hi hn
    rw [inOrderFrom]
    by_cases hlt : i < all.length
    · rw [keptAt_eq h hall hlt, List.getElem?_eq_getElem hlt, List.drop_eq_getElem_cons hlt]
      simp only
      rw [ih (by omega) (by omega)]
    · have he : i = all.length := by omega
      rw [he, keptAt_end h hall hrest, List.drop_length]

theorem Agrees.length_le (h : Agrees f l m) : m.length ≤ l.length := by
  classical
  have hperm : l.Perm m := by
    rw [List.perm_iff_count]
    intro x
    have hcount : ∀ k : List α, k.count x = (showing f (f x) k).count x := by
      intro k
      rw [showing, List.count_filter (by simp)]
    rw [hcount l, hcount m, h]
  exact Nat.le_of_eq hperm.length_eq.symm

/-! ## The run of a buffer -/

theorem runFrom_consec (l : List α) : ∀ (n : Nat) (sn : UInt32), Consec f sn (runFrom f l n sn) ∧
    (∀ x ∈ runFrom f l n sn, x ∈ l) ∧ (runFrom f l n sn).length ≤ n ∧
    ((runFrom f l n sn).length < n → ∀ x ∈ l, f x ≠ sn + u32 (runFrom f l n sn).length) := by
  intro n
  induction n with
  | zero => exact fun sn => ⟨trivial, by simp [runFrom], Nat.le_refl _, fun h => absurd h (Nat.lt_irrefl _)⟩
  | succ n ih =>
    intro sn
    rw [runFrom]
    cases hf : l.find? (fun x => decide (f x = sn)) with
    | none =>
      refine ⟨trivial, by simp, Nat.zero_le _, fun _ x hx => ?_⟩
      simpa using List.find?_eq_none.mp hf x hx
    | some x =>
      obtain ⟨h1, h2, h3, h4⟩ := ih (sn + 1)
      have hx : f x = sn := by simpa using List.find?_some hf
      refine ⟨⟨hx, h1⟩, ?_, Nat.succ_le_succ h3, fun hlt y hy => ?_⟩
      · simpa using ⟨List.mem_of_find?_eq_some hf, h2⟩
      · have := h4 (Nat.lt_of_succ_lt_succ hlt) y hy
        rwa [add_u32_succ] at this

/-- The run, the rest of the buffer, and that the run ends at a gap. -/
theorem run_spec (hlen : l.length < 2 ^ 32) (sn : UInt32) :
    Consec f sn (run f l sn) ∧ ∃ rest, (run f l sn ++ rest).Perm l ∧
      ∀ x ∈ rest, f x ≠ sn + u32 (run f l sn).length := by
  obtain ⟨hrun, hmem, hle, hend⟩ := runFrom_consec (f := f) l l.length sn
  change Consec f sn (run f l sn) at hrun
  change ∀ x ∈ run f l sn, x ∈ l at hmem
  change (run f l sn).length ≤ l.length at hle
  change (run f l sn).length < l.length → ∀ x ∈ l, f x ≠ sn + u32 (run f l sn).length at hend
  have hnodup : (run f l sn).Nodup := by
    rw [List.nodup_iff_getElem?_ne_getElem?]
    intro i j hij hj he
    have hx := List.getElem?_eq_getElem hj
    have := hrun.index (he.trans hx) hx (by omega) rfl
    omega
  obtain ⟨m, hm, hsub⟩ := List.subperm_of_subset hnodup hmem
  obtain ⟨rest, hperm⟩ := hsub.exists_perm_append
  have hall : (run f l sn ++ rest).Perm l := (hm.symm.append_right rest).trans hperm.symm
  refine ⟨hrun, rest, hall, fun x hx => ?_⟩
  have hlt : (run f l sn).length < l.length := by
    have h1 := hall.length_eq
    have h2 := List.length_pos_of_mem hx
    rw [List.length_append] at h1
    omega
  exact hend hlt x (hall.mem_iff.mp (List.mem_append_right _ hx))

/-- **What was received in order** is what the receiver has taken out in
order, and the run of its buffer. -/
theorem inOrder_eq {done : List α} (h : Agrees f log (done ++ l)) (hdone : Consec f 0 done)
    (hl : (l.map f).Nodup) (hlen : l.length < 2 ^ 32) : inOrder f log = done ++ run f l (u32 done.length) := by
  obtain ⟨hrun, rest, hperm, hgap⟩ := run_spec hlen (u32 done.length)
  have hnodup : ((run f l (u32 done.length) ++ rest).map f).Nodup := (hperm.map f).nodup_iff.mpr hl
  have hagrees : Agrees f log ((done ++ run f l (u32 done.length)) ++ rest) := by
    rw [List.append_assoc]
    exact h.trans ((Agrees.refl done).append (Agrees.of_perm hperm hnodup).symm)
  have hall : Consec f 0 (done ++ run f l (u32 done.length)) := by
    refine hdone.append ?_
    rw [UInt32.zero_add]
    exact hrun
  have hend : ∀ x ∈ rest, f x ≠ u32 (done ++ run f l (u32 done.length)).length := by
    intro x hx
    rw [List.length_append, ← u32_add]
    exact hgap x hx
  have hle := hagrees.length_le
  rw [List.length_append] at hle
  exact inOrderFrom_eq hagrees hall hend (Nat.zero_le _) (by omega)

/-! ## Taking out the run of a stock

A receiver that takes the next number out of its stock as long as it can:
what it has taken does not depend on how the stock came together. -/

/-- Of the same stock, what was taken longer continues what was taken first. -/
theorem taken_initial {b : UInt32} {m₁ m₂ r₁ r₂ : List α} (h₁ : Consec f b m₁) (h₂ : Consec f b m₂)
    (hstock : ∀ x, x ∈ m₂ ++ r₂ → x ∈ m₁ ++ r₁)
    (hinj : ∀ x ∈ m₁ ++ r₁, ∀ y ∈ m₁ ++ r₁, f x = f y → x = y) (hle : m₁.length ≤ m₂.length) : m₁ <+: m₂ := by
  rw [List.prefix_iff_eq_take]
  refine List.ext_getElem? fun i => ?_
  rw [List.getElem?_take]
  split
  · rename_i hi
    have hi₂ : i < m₂.length := Nat.lt_of_lt_of_le hi hle
    have hx := List.getElem?_eq_getElem hi
    have hy := List.getElem?_eq_getElem hi₂
    have hnum : f m₁[i] = f m₂[i] := (consec_iff.mp h₁ i _ hx).trans (consec_iff.mp h₂ i _ hy).symm
    rw [hx, hy, hinj _ (List.mem_append_left _ (List.getElem_mem hi)) _
      (hstock _ (List.mem_append_left _ (List.getElem_mem hi₂))) hnum]
  · rename_i hi
    exact List.getElem?_eq_none (Nat.le_of_not_lt hi)

/-- With less taken, the next number is still in the rest. -/
theorem next_in_rest {b : UInt32} {m₁ m₂ r₁ r₂ : List α} (h₁ : Consec f b m₁) (h₂ : Consec f b m₂)
    (hstock : ∀ x, x ∈ m₂ ++ r₂ → x ∈ m₁ ++ r₁) (hlt : m₁.length < m₂.length) (hlen : m₁.length < 2 ^ 32) :
    ∃ x ∈ r₁, f x = b + u32 m₁.length := by
  have hy := List.getElem?_eq_getElem hlt
  have hnum := consec_iff.mp h₂ m₁.length _ hy
  refine ⟨m₂[m₁.length], ?_, hnum⟩
  rcases List.mem_append.mp (hstock _ (List.mem_append_left _ (List.getElem_mem hlt))) with hin | hin
  · obtain ⟨i, hi⟩ := List.getElem?_of_mem hin
    have hlti := (List.getElem?_eq_some_iff.mp hi).1
    have := u32_add_cancel ((consec_iff.mp h₁ i _ hi).symm.trans hnum) (by omega) hlen
    omega
  · exact hin

end

end KcpGo.InOrder
