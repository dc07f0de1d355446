import Mathlib.Data.List.ReduceOption

/-!
# Queues kept in a slice with a head index

A FIFO queue stored as a slice and the index of its oldest entry: taking an
entry clears its slot and moves the index, so nothing is shifted. The slice
is reset once it is used up, and `compact` moves the entries back to its
start. A cleared slot is `none`.

The structure carries what makes the index sound: it is within the slice and
no entry from it on is cleared. `items` is the queue it stands for, and one
lemma for each operation says what it does to that list.
-/
namespace KcpGo

structure HeadQueue (α : Type) where
  q : List (Option α)
  head : Nat
  head_le : head ≤ q.length
  live : ∀ o ∈ q.drop head, o.isSome = true

namespace HeadQueue

variable {α : Type}

/-- The entries, oldest first. -/
def items (h : HeadQueue α) : List α := (h.q.drop h.head).reduceOption

def empty : HeadQueue α := ⟨[], 0, Nat.le_refl _, by simp⟩

/-- How many entries wait. -/
def size (h : HeadQueue α) : Nat := h.q.length - h.head

@[simp] theorem items_empty : (empty : HeadQueue α).items = [] := rfl

theorem length_reduceOption_of_live {l : List (Option α)} (hl : ∀ o ∈ l, o.isSome = true) :
    l.reduceOption.length = l.length :=
  (List.reduceOption_length_eq_iff).mpr hl

theorem length_items (h : HeadQueue α) : h.items.length = h.size := by
  rw [items, length_reduceOption_of_live h.live, List.length_drop]
  rfl

theorem items_eq_nil_iff (h : HeadQueue α) : h.items = [] ↔ h.head = h.q.length := by
  rw [← List.length_eq_zero_iff, length_items, size]
  have := h.head_le
  omega

/-- The entries moved to the start of the slice. -/
def compact (h : HeadQueue α) : HeadQueue α := ⟨h.q.drop h.head, 0, Nat.zero_le _, h.live⟩

@[simp] theorem items_compact (h : HeadQueue α) : h.compact.items = h.items := rfl

def append (h : HeadQueue α) (x : α) : HeadQueue α where
  q := h.q ++ [some x]
  head := h.head
  head_le := by
    have := h.head_le
    simp only [List.length_append]
    omega
  live o ho := by
    rw [List.drop_append_of_le_length h.head_le, List.mem_append] at ho
    rcases ho with ho | ho
    · exact h.live o ho
    · rw [List.mem_singleton.mp ho]
      rfl

@[simp] theorem items_append (h : HeadQueue α) (x : α) : (h.append x).items = h.items ++ [x] := by
  show ((h.q ++ [some x]).drop h.head).reduceOption = _
  rw [List.drop_append_of_le_length h.head_le, List.reduceOption_append]
  rfl

theorem lt_of_ne (h : HeadQueue α) (hne : h.head ≠ h.q.length) : h.head < h.q.length :=
  Nat.lt_of_le_of_ne h.head_le hne

theorem drop_head (h : HeadQueue α) (hlt : h.head < h.q.length) :
    h.q.drop h.head = h.q.get ⟨h.head, hlt⟩ :: h.q.drop (h.head + 1) :=
  List.drop_eq_getElem_cons hlt

theorem head_live (h : HeadQueue α) (hlt : h.head < h.q.length) : (h.q.get ⟨h.head, hlt⟩).isSome = true :=
  h.live _ (by rw [h.drop_head hlt]; exact List.mem_cons_self)

/-- The oldest entry. -/
def first (h : HeadQueue α) (hlt : h.head < h.q.length) : α :=
  (h.q.get ⟨h.head, hlt⟩).get (h.head_live hlt)

/-- The oldest slot cleared and left behind; a used-up slice is reset. -/
def advance (h : HeadQueue α) (hlt : h.head < h.q.length) : HeadQueue α :=
  if h.head + 1 = h.q.length then empty
  else
    { q := h.q.set h.head none
      head := h.head + 1
      head_le := by rw [List.length_set]; exact hlt
      live := by
        intro o ho
        rw [List.drop_set_of_lt (Nat.lt_succ_self _)] at ho
        exact h.live o (by rw [h.drop_head hlt]; exact List.mem_cons_of_mem _ ho) }

theorem items_advance (h : HeadQueue α) (hlt : h.head < h.q.length) :
    h.items = h.first hlt :: (h.advance hlt).items := by
  have hd : h.items = h.first hlt :: (h.q.drop (h.head + 1)).reduceOption := by
    rw [items, h.drop_head hlt, ← Option.some_get (h.head_live hlt), List.reduceOption_cons_of_some]
    rfl
  rw [hd]
  unfold advance
  split
  · rename_i he
    rw [he, List.drop_length]
    rfl
  · rw [items, List.drop_set_of_lt (Nat.lt_succ_self _)]

end HeadQueue
end KcpGo
