import KcpGo.Core.Cells
import KcpGo.Core.HeadQueue

/-!
# A head-indexed queue in the memory of a slice

What `HeadQueue` says of a queue in a slice, one level down: the slice has a
length and a capacity, `append` writes into the spare places or moves to a new
array, compaction is `copy` onto the slice itself and `clear`, and every index
is checked. `Stores s h` says that the slice `s` stores the queue `h`, with the
zero value in the cleared slots. Each operation returns, and on what `s` stores
it does what the operation of `HeadQueue` does.
-/
namespace KcpGo

/-- A slice that alone uses its array: `q[0:len(q)]` and `q[len(q):cap(q)]`. -/
structure GrowSlice (α : Type) where
  elems : List α
  spare : List α

namespace GrowSlice

variable {α : Type}

/-- The nil slice. -/
def nil : GrowSlice α := ⟨[], []⟩

def cap (s : GrowSlice α) : Nat := s.elems.length + s.spare.length

/-- `s[:n]`. -/
def upTo (s : GrowSlice α) (n : Nat) : Go (GrowSlice α) :=
  if n ≤ s.cap then .ok ⟨(s.elems ++ s.spare).take n, (s.elems ++ s.spare).drop n⟩ else .error .sliceBounds

/-- `append(s, x)`; a new array has `room` more places than it needs. -/
def append [Inhabited α] (room : Nat) (s : GrowSlice α) (x : α) : GrowSlice α :=
  match s.spare with
  | [] => ⟨s.elems ++ [x], List.replicate room default⟩
  | _ :: spare => ⟨s.elems ++ [x], spare⟩

theorem upTo_zero (s : GrowSlice α) : s.upTo 0 = .ok ⟨[], s.elems ++ s.spare⟩ := by
  rw [upTo, if_pos (Nat.zero_le _), List.take_zero, List.drop_zero]

section
variable [Inhabited α]

@[simp] theorem append_elems (room : Nat) (s : GrowSlice α) (x : α) : (s.append room x).elems = s.elems ++ [x] := by
  unfold append
  split <;> rfl

theorem append_cap (room : Nat) (s : GrowSlice α) (x : α) :
    (s.append room x).cap = if s.elems.length < s.cap then s.cap else s.elems.length + 1 + room := by
  unfold append cap
  cases s.spare with
  | nil => simp
  | cons _ spare =>
    simp only [List.length_append, List.length_cons, List.length_nil]
    rw [if_pos (by omega)]
    omega

end

end GrowSlice

structure SliceQueue (α : Type) where
  q : GrowSlice α
  head : Nat

namespace SliceQueue

variable {α : Type}

def nil : SliceQueue α := ⟨.nil, 0⟩

/-- The entries, oldest first. -/
def waiting (s : SliceQueue α) : List α := s.q.elems.drop s.head

section
variable [Inhabited α]

/-- `n := copy(q, q[head:]); clear(q[n:]); q, head = q[:n], 0`. -/
def compact (s : SliceQueue α) : Go (SliceQueue α) := do
  let src ← Cells.range s.q.elems s.head s.q.elems.length
  let (elems, n) := Cells.copy s.q.elems src
  let elems ← Cells.clear elems n elems.length
  let q ← GrowSlice.upTo ⟨elems, s.q.spare⟩ n
  .ok ⟨q, 0⟩

/-- `q = append(q, x)`. -/
def append (room : Nat) (s : SliceQueue α) (x : α) : SliceQueue α := ⟨s.q.append room x, s.head⟩

/-- `x := q[head]; q[head] = zero; head++`; a used-up slice is reset to
`q[:0]`, and let go if `keep` refuses its capacity. -/
def take (keep : Nat → Bool) (s : SliceQueue α) : Go (SliceQueue α × α) := do
  let x ← Cells.load s.q.elems s.head
  let elems ← Cells.store s.q.elems s.head default
  if s.head + 1 = elems.length then do
    let q ← GrowSlice.upTo ⟨elems, s.q.spare⟩ 0
    .ok (⟨if keep q.cap then q else .nil, 0⟩, x)
  else .ok (⟨⟨elems, s.q.spare⟩, s.head + 1⟩, x)

/-- The slice stores the queue. -/
structure Stores (s : SliceQueue α) (h : HeadQueue α) : Prop where
  elems : s.q.elems = h.q.map fun o => o.getD default
  head : s.head = h.head

namespace Stores

variable {s : SliceQueue α} {h : HeadQueue α}

theorem nil : Stores (SliceQueue.nil : SliceQueue α) .empty := ⟨rfl, rfl⟩

theorem length (hs : Stores s h) : s.q.elems.length = h.q.length := by rw [hs.elems, List.length_map]

theorem head_le (hs : Stores s h) : s.head ≤ s.q.elems.length := by
  rw [hs.head, hs.length]
  exact h.head_le

theorem map_live {l : List (Option α)} (hl : ∀ o ∈ l, o.isSome = true) :
    (l.map fun o => o.getD default) = l.reduceOption := by
  induction l with
  | nil => rfl
  | cons o l ih =>
    obtain ⟨x, rfl⟩ := Option.isSome_iff_exists.mp (hl o List.mem_cons_self)
    rw [List.map_cons, ih fun o ho => hl o (List.mem_cons_of_mem _ ho)]
    rfl

theorem waiting (hs : Stores s h) : s.waiting = h.items := by
  rw [SliceQueue.waiting, hs.elems, hs.head, ← List.map_drop, map_live h.live]
  rfl

theorem compact (hs : Stores s h) : ∃ s', s.compact = .ok s' ∧ Stores s' h.compact ∧ s'.q.cap = s.q.cap := by
  -- the slice as what is consumed and what waits
  obtain ⟨pre, seg, hsplit, hpre⟩ : ∃ pre seg, s.q.elems = pre ++ seg ∧ pre.length = s.head :=
    ⟨s.q.elems.take s.head, s.q.elems.drop s.head, (List.take_append_drop _ _).symm, List.length_take_of_le hs.head_le⟩
  have hseg : seg = h.compact.q.map fun o => o.getD default := by
    have hdrop : s.q.elems.drop s.head = seg := by rw [hsplit, ← hpre, List.drop_left]
    rw [← hdrop, hs.elems, hs.head, ← List.map_drop]
    rfl
  have hcopy := Cells.copy_fit (show seg.length ≤ (pre ++ seg).length by simp)
  have htail : ((pre ++ seg).drop seg.length).length = pre.length := by simp
  have hclear := Cells.clear_append seg ((pre ++ seg).drop seg.length) [] rfl rfl
  rw [List.append_nil, List.append_nil, htail] at hclear
  have hlen : (seg ++ (pre ++ seg).drop seg.length).length = seg.length + pre.length := by
    rw [List.length_append, htail]
  refine ⟨⟨⟨seg, List.replicate pre.length default ++ s.q.spare⟩, 0⟩, ?_, ⟨hseg, rfl⟩, ?_⟩
  · rw [SliceQueue.compact, hsplit, Cells.range_right pre seg hpre.symm, Go.ok_bind, hcopy]
    dsimp only
    rw [hlen, hclear, Go.ok_bind, GrowSlice.upTo, if_pos (by simp [GrowSlice.cap]; omega), List.append_assoc,
      List.take_left, List.drop_left]
    rfl
  · simp only [GrowSlice.cap, hsplit, List.length_append, List.length_replicate]
    omega

theorem append (hs : Stores s h) (room : Nat) (x : α) : Stores (s.append room x) (h.append x) where
  elems := by
    rw [SliceQueue.append, GrowSlice.append_elems, hs.elems]
    exact (List.map_append : List.map _ (h.q ++ [some x]) = _).symm
  head := hs.head

theorem take (hs : Stores s h) (keep : Nat → Bool) (hlt : h.head < h.q.length) :
    ∃ s', s.take keep = .ok (s', h.first hlt) ∧ Stores s' (h.advance hlt) ∧
      s'.q.cap = if h.head + 1 = h.q.length ∧ keep s.q.cap = false then 0 else s.q.cap := by
  have hlt' : h.head < s.q.elems.length := by rw [hs.length]; exact hlt
  have hget : Cells.load s.q.elems h.head = .ok (h.first hlt) := by
    have hslot : h.q[h.head]? = some (some (h.first hlt)) := by
      rw [List.getElem?_eq_getElem hlt, HeadQueue.first, Option.some_get]
      rfl
    rw [Cells.load, hs.elems, List.getElem?_map, hslot]
    rfl
  unfold SliceQueue.take HeadQueue.advance
  rw [hs.head, hget, Cells.store, if_pos hlt', Go.ok_bind, Go.ok_bind, List.length_set, hs.length]
  by_cases hlast : h.head + 1 = h.q.length
  · have hcap : GrowSlice.cap ⟨[], s.q.elems.set h.head default ++ s.q.spare⟩ = s.q.cap := by simp [GrowSlice.cap]
    rw [if_pos hlast, if_pos hlast, GrowSlice.upTo_zero, Go.ok_bind, hcap]
    by_cases hkeep : keep s.q.cap = true
    · refine ⟨⟨⟨[], s.q.elems.set h.head default ++ s.q.spare⟩, 0⟩, by rw [if_pos hkeep], ⟨rfl, rfl⟩, ?_⟩
      rw [if_neg fun h => by simp [hkeep] at h]
      exact hcap
    · refine ⟨SliceQueue.nil, by rw [if_neg hkeep]; rfl, Stores.nil, ?_⟩
      rw [if_pos ⟨hlast, Bool.eq_false_iff.mpr hkeep⟩]
      rfl
  · rw [if_neg hlast, if_neg hlast, if_neg fun h => hlast h.1]
    refine ⟨_, rfl, ⟨?_, rfl⟩, ?_⟩
    · rw [List.map_set, hs.elems]
      rfl
    · simp [GrowSlice.cap]

end Stores

end

end SliceQueue
end KcpGo
