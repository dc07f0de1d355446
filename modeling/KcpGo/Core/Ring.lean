import Mathlib.Data.Int.ModEq
import Mathlib.Data.List.Range

/-!
# A fixed ring that keeps the latest elements

`tail` is the next write position, `head` the oldest element. A write to a
full ring drops the oldest.

* `toList_push`, `toList_foldl_push`: the ring holds the last `cap` elements
  written, in order.
-/
namespace KcpGo

structure Ring (α : Type) (cap : Nat) where
  slots : List α
  head : Nat
  tail : Nat
  count : Nat
  slots_length : slots.length = cap
  head_lt : head < cap
  count_le : count ≤ cap
  tail_eq : tail = (head + count) % cap

namespace Ring

variable {α : Type} {cap : Nat}

def empty (x : α) (h : 0 < cap) : Ring α cap where
  slots := List.replicate cap x
  head := 0
  tail := 0
  count := 0
  slots_length := by simp
  head_lt := h
  count_le := Nat.zero_le _
  tail_eq := by simp

def push (r : Ring α cap) (x : α) : Ring α cap :=
  if h : r.count < cap then
    { slots := r.slots.set r.tail x
      head := r.head
      tail := (r.tail + 1) % cap
      count := r.count + 1
      slots_length := by rw [List.length_set, r.slots_length]
      head_lt := r.head_lt
      count_le := h
      tail_eq := by rw [r.tail_eq, Nat.mod_add_mod, Nat.add_assoc] }
  else
    { slots := r.slots.set r.tail x
      head := (r.head + 1) % cap
      tail := (r.tail + 1) % cap
      count := r.count
      slots_length := by rw [List.length_set, r.slots_length]
      head_lt := Nat.mod_lt _ (Nat.lt_of_le_of_lt (Nat.zero_le _) r.head_lt)
      count_le := r.count_le
      tail_eq := by rw [r.tail_eq, Nat.mod_add_mod, Nat.mod_add_mod, Nat.add_right_comm] }

/-- The elements from the oldest to the latest. -/
def toList (r : Ring α cap) : List α :=
  (List.range r.count).filterMap fun i => r.slots[(r.head + i) % cap]?

@[simp] theorem toList_empty (x : α) (h : 0 < cap) : (empty x h).toList = [] := rfl

private theorem slot_some (r : Ring α cap) (i : Nat) : ∃ y, r.slots[(r.head + i) % cap]? = some y := by
  have hlt : (r.head + i) % cap < r.slots.length := by
    rw [r.slots_length]
    exact Nat.mod_lt _ (Nat.lt_of_le_of_lt (Nat.zero_le _) r.head_lt)
  exact ⟨_, List.getElem?_eq_getElem hlt⟩

private theorem mod_ne {cap a i j : Nat} (hi : i < cap) (hj : j < cap) (h : i ≠ j) :
    (a + i) % cap ≠ (a + j) % cap := by
  intro he
  have hmod : i ≡ j [MOD cap] := Nat.ModEq.add_left_cancel rfl he
  exact h (hmod.eq_of_lt_of_lt hi hj)

theorem length_toList (r : Ring α cap) : r.toList.length = r.count := by
  unfold toList
  induction r.count with
  | zero => rfl
  | succ n ih =>
    obtain ⟨y, hy⟩ := r.slot_some n
    rw [List.range_succ, List.filterMap_append, List.length_append, ih]
    simp [hy]

/-- A slot just written holds the element; the others are as before. -/
private theorem filterMap_set (r : Ring α cap) (x : α) {n k : Nat} (f : Nat → Nat) (hk : r.tail = (r.head + k) % cap)
    (hkc : k < cap) (hf : ∀ i < n, f i < cap ∧ f i ≠ k) :
    ((List.range n).filterMap fun i => (r.slots.set r.tail x)[(r.head + f i) % cap]?) =
      (List.range n).filterMap fun i => r.slots[(r.head + f i) % cap]? := by
  refine List.filterMap_congr fun i hi => ?_
  obtain ⟨h1, h2⟩ := hf i (List.mem_range.mp hi)
  rw [List.getElem?_set_ne]
  rw [hk]
  exact mod_ne hkc h1 (Ne.symm h2)

theorem toList_push_of_lt (r : Ring α cap) (x : α) (h : r.count < cap) : (r.push x).toList = r.toList ++ [x] := by
  have hlt : r.tail < r.slots.length := by
    rw [r.slots_length, r.tail_eq]
    exact Nat.mod_lt _ (Nat.lt_of_le_of_lt (Nat.zero_le _) r.head_lt)
  have hpre := r.filterMap_set x (n := r.count) id r.tail_eq h fun i hi => ⟨Nat.lt_trans hi h, Nat.ne_of_lt hi⟩
  have hlast : (r.slots.set r.tail x)[(r.head + r.count) % cap]? = some x := by
    rw [← r.tail_eq, List.getElem?_set_self hlt]
  simp only [toList, push, dif_pos h, List.range_succ, List.filterMap_append, List.filterMap_cons, hlast,
    List.filterMap_nil]
  exact congrArg (· ++ [x]) hpre

theorem toList_push_of_full (r : Ring α cap) (x : α) (h : ¬ r.count < cap) :
    (r.push x).toList = r.toList.tail ++ [x] := by
  have hc : r.count = cap := Nat.le_antisymm r.count_le (Nat.not_lt.mp h)
  obtain ⟨n, hn⟩ : ∃ n, cap = n + 1 := ⟨cap - 1, by have := r.head_lt; omega⟩
  have htail : r.tail = (r.head + 0) % cap := by rw [r.tail_eq, hc, Nat.add_mod_right, Nat.add_zero]
  have hlt : r.tail < r.slots.length := by
    rw [r.slots_length, htail]
    exact Nat.mod_lt _ (Nat.lt_of_le_of_lt (Nat.zero_le _) r.head_lt)
  have hshift : ∀ i, ((r.head + 1) % cap + i) % cap = (r.head + (i + 1)) % cap := by
    intro i
    rw [Nat.mod_add_mod, Nat.add_right_comm, Nat.add_assoc]
  have hpre := r.filterMap_set x (n := n) (· + 1) htail (by omega) fun i hi => ⟨by omega, by omega⟩
  have hlast : (r.slots.set r.tail x)[(r.head + (n + 1)) % cap]? = some x := by
    rw [← hn, Nat.add_mod_right, ← Nat.add_zero r.head, ← htail]
    exact List.getElem?_set_self hlt
  have hcn : r.count = n + 1 := hc.trans hn
  obtain ⟨y, hy⟩ := r.slot_some 0
  have hold : r.toList = y :: (List.range n).filterMap fun i => r.slots[(r.head + (i + 1)) % cap]? := by
    rw [toList, hcn, List.range_succ_eq_map, List.filterMap_cons, hy, List.filterMap_map]
    rfl
  rw [hold, List.tail_cons, ← hpre]
  simp only [toList, push, dif_neg h, hshift]
  rw [hcn, List.range_succ, List.filterMap_append, List.filterMap_cons, hlast, List.filterMap_nil]

/-- **The latest elements.** -/
theorem toList_push (r : Ring α cap) (x : α) :
    (r.push x).toList = (r.toList ++ [x]).drop (r.toList.length + 1 - cap) := by
  have hle := r.count_le
  rw [r.length_toList]
  by_cases h : r.count < cap
  · rw [toList_push_of_lt r x h, Nat.sub_eq_zero_of_le (by omega), List.drop_zero]
  · have h1 : r.count + 1 - cap = 1 := by omega
    have hpos : 1 ≤ r.toList.length := by
      have := r.head_lt
      rw [r.length_toList]
      omega
    rw [toList_push_of_full r x h, h1, List.drop_append_of_le_length hpos, List.drop_one]

theorem toList_foldl_push (x : α) (h : 0 < cap) (l : List α) :
    (l.foldl push (empty x h)).toList = l.drop (l.length - cap) := by
  induction l using List.reverseRecOn with
  | nil => simp
  | append_singleton l y ih =>
    rw [List.foldl_append, List.foldl_cons, List.foldl_nil, toList_push, ih, List.length_drop,
      ← List.drop_append_of_le_length (Nat.sub_le _ _), List.drop_drop, List.length_append, List.length_singleton]
    congr 1
    omega

theorem mem_push {r : Ring α cap} {x y : α} (h : y ∈ (r.push x).toList) : y ∈ r.toList ∨ y = x := by
  rw [toList_push] at h
  simpa using List.mem_of_mem_drop h

/-- The newest entries stay until there are more of them than slots. -/
theorem suffix_push {r : Ring α cap} {l : List α} (x : α) (h : l <:+ r.toList) (hl : l.length < cap) :
    l ++ [x] <:+ (r.push x).toList := by
  obtain ⟨pre, hpre⟩ := h
  by_cases hc : r.count < cap
  · rw [toList_push_of_lt r x hc, ← hpre, List.append_assoc]
    exact List.suffix_append _ _
  · rw [toList_push_of_full r x hc, ← hpre]
    cases pre with
    | nil =>
      have hlen := r.length_toList
      rw [← hpre, List.nil_append] at hlen
      omega
    | cons y pre =>
      rw [List.cons_append, List.tail_cons, List.append_assoc]
      exact List.suffix_append _ _

end Ring
end KcpGo
