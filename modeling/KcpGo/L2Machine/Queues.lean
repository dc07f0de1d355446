import KcpGo.Core.HeadQueue

/-!
# The two head-indexed queues

`sendQueue` (src/sendqueue.go) holds a session's packets until a worker takes
them: bounded, and it drops an oversized slice once it is drained. `ppQueue`
(src/postprocess.go) holds the sessions that wait for a worker: unbounded.
Both are `HeadQueue`s that compact at different times.

* `push_items`, `pop_items`, `len_items`: `sendQueue` is a FIFO list that
  refuses a push exactly when `devBacklog` requests wait.
* `enqueue_items`, `dequeue_items`: `ppQueue` is a FIFO list.

The capacity Go's `append` picks for a full slice is an argument.
-/
namespace KcpGo.L2

/-- mirrors src/sess.go:89 -/
def devBacklog : Nat := 2048

/-- mirrors src/sendqueue.go:28 -/
def sendQueueKeep : Nat := 64

/-- mirrors src/sendqueue.go:32-36 (`sendQueue`) -/
structure SendQueue (α : Type) extends HeadQueue α where
  cap : Nat

namespace SendQueue

variable {α : Type}

def empty : SendQueue α := ⟨.empty, 0⟩

/-- `append(sq.q, r)`; a full slice is reallocated with `grow` places. -/
def appendSlice (grow : Nat) (sq : SendQueue α) (r : α) : SendQueue α :=
  ⟨sq.append r, if sq.q.length < sq.cap then sq.cap else grow⟩

/-- mirrors src/sendqueue.go:39-52 (`push`) -/
def push (grow : Nat) (sq : SendQueue α) (r : α) : Bool × SendQueue α :=
  if sq.size ≥ devBacklog then (false, sq)
  else if sq.head > 0 ∧ sq.q.length = sq.cap then (true, appendSlice grow ⟨sq.compact, sq.cap⟩ r)
  else (true, appendSlice grow sq r)

/-- mirrors src/sendqueue.go:56-72 (`pop`) -/
def pop (sq : SendQueue α) : Option α × SendQueue α :=
  if h : sq.head = sq.q.length then (none, sq)
  else
    have hlt := sq.lt_of_ne h
    (some (sq.first hlt),
      { toHeadQueue := sq.advance hlt
        -- a drained slice with too much room is let go
        cap := if sq.head + 1 = sq.q.length ∧ sq.cap > sendQueueKeep then 0 else sq.cap })

/-- mirrors src/sendqueue.go:75-79 (`len`) -/
def len (sq : SendQueue α) : Nat := sq.size

@[simp] theorem items_mk (h : HeadQueue α) (c : Nat) : (SendQueue.mk h c).items = h.items := rfl

@[simp] theorem items_empty : (empty : SendQueue α).items = [] := rfl

theorem len_items (sq : SendQueue α) : sq.len = sq.items.length := sq.length_items.symm

theorem appendSlice_items (grow : Nat) (sq : SendQueue α) (r : α) :
    (sq.appendSlice grow r).items = sq.items ++ [r] :=
  sq.items_append r

theorem push_items (grow : Nat) (sq : SendQueue α) (r : α) :
    if sq.items.length < devBacklog then
      (sq.push grow r).1 = true ∧ (sq.push grow r).2.items = sq.items ++ [r]
    else sq.push grow r = (false, sq) := by
  rw [sq.length_items]
  unfold push
  by_cases hfull : sq.size ≥ devBacklog
  · rw [if_neg (Nat.not_lt.mpr hfull), if_pos hfull]
  · rw [if_pos (Nat.lt_of_not_le hfull), if_neg hfull]
    split
    · exact ⟨rfl, appendSlice_items _ _ _⟩
    · exact ⟨rfl, appendSlice_items _ _ _⟩

theorem pop_items (sq : SendQueue α) :
    sq.pop.1 = sq.items.head? ∧ sq.pop.2.items = sq.items.tail := by
  unfold pop
  split
  · rename_i h
    have hnil := sq.items_eq_nil_iff.mpr h
    exact ⟨by rw [hnil]; rfl, by rw [hnil]; rfl⟩
  · rename_i h
    rw [sq.items_advance (sq.lt_of_ne h)]
    exact ⟨rfl, rfl⟩

end SendQueue

/-- mirrors src/postprocess.go:40-46 (`ppQueue`); the mutex and the condition
variable are the steps of the system that uses the queue. -/
abbrev PPQueue (σ : Type) := HeadQueue σ

namespace PPQueue

variable {σ : Type}

/-- The append of `ppEnqueue` with its compaction.
mirrors src/postprocess.go:159-165 (`ppEnqueue`) -/
def enqueue (pq : PPQueue σ) (s : σ) : PPQueue σ :=
  if pq.head > pq.q.length / 2 then (HeadQueue.compact pq).append s else HeadQueue.append pq s

/-- `none`: the worker waits.
mirrors src/postprocess.go:186-195 (`postProcessWorker`) -/
def dequeue (pq : PPQueue σ) : Option (σ × PPQueue σ) :=
  if h : pq.head = pq.q.length then none
  else some (pq.first (pq.lt_of_ne h), pq.advance (pq.lt_of_ne h))

@[simp] theorem enqueue_items (pq : PPQueue σ) (s : σ) : (enqueue pq s).items = pq.items ++ [s] := by
  unfold enqueue
  split
  · rw [HeadQueue.items_append, HeadQueue.items_compact]
  · exact pq.items_append s

theorem dequeue_items {pq pq' : PPQueue σ} {s : σ} (h : dequeue pq = some (s, pq')) :
    pq.items = s :: pq'.items := by
  unfold dequeue at h
  split at h
  · cases h
  · rename_i hne
    cases h
    exact pq.items_advance _

theorem dequeue_none {pq : PPQueue σ} : dequeue pq = none ↔ pq.items = [] := by
  rw [pq.items_eq_nil_iff]
  unfold dequeue
  split
  · rename_i h
    simp [h]
  · rename_i h
    simp [h]

end PPQueue
end KcpGo.L2
