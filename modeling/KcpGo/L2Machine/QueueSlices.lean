import KcpGo.Core.GoLoop
import KcpGo.Core.SliceQueue
import KcpGo.L2Machine.Queues

/-!
# `sendQueue` and `ppQueue` in their slices

The operations of the two queues as the source writes them on the slice and
its head index, with Go's bounds checks and any capacity that `append` picks.
They do what `SendQueue` and `PPQueue` do (`push_stores`, `pop_stores`,
`enqueue_stores`, `dequeue_stores`), and `queues_fifo` says what that is for
every sequence of calls: a FIFO list.
-/
namespace KcpGo.L2

variable {α : Type} [Inhabited α]

namespace SendSlice

/-- mirrors src/sendqueue.go:39-52 (`push`) -/
def push (room : Nat) (sq : SliceQueue α) (r : α) : Go (SliceQueue α × Bool) :=
  if (sq.q.elems.length : Int) - sq.head ≥ devBacklog then .ok (sq, false)
  else do
    let sq ← if sq.head > 0 ∧ sq.q.elems.length = sq.q.cap then sq.compact else .ok sq
    .ok (sq.append room r, true)

/-- mirrors src/sendqueue.go:56-72 (`pop`) -/
def pop (sq : SliceQueue α) : Go (SliceQueue α × α × Bool) :=
  if sq.head = sq.q.elems.length then .ok (sq, default, false)
  else do
    let (sq, r) ← sq.take fun c => decide (c ≤ sendQueueKeep)
    .ok (sq, r, true)

/-- mirrors src/sendqueue.go:75-79 (`len`) -/
def len (sq : SliceQueue α) : Int := (sq.q.elems.length : Int) - sq.head

/-- The slice stores the queue, with its capacity. -/
structure Holds (s : SliceQueue α) (sq : SendQueue α) : Prop where
  stores : s.Stores sq.toHeadQueue
  cap : s.q.cap = sq.cap

variable {s : SliceQueue α} {sq : SendQueue α}

theorem nil_holds : Holds (SliceQueue.nil : SliceQueue α) .empty := ⟨.nil, rfl⟩

theorem len_stores (h : Holds s sq) : len s = sq.len := by
  have hle := h.stores.head_le
  rw [len, SendQueue.len, HeadQueue.size, ← h.stores.length, ← h.stores.head]
  omega

theorem append_holds (h : Holds s sq) (room : Nat) (r : α) :
    Holds (s.append room r) (sq.appendSlice (s.q.elems.length + 1 + room) r) := by
  refine ⟨h.stores.append room r, ?_⟩
  rw [SliceQueue.append, GrowSlice.append_cap, h.cap, h.stores.length]
  rfl

theorem push_stores (h : Holds s sq) (room : Nat) (r : α) : ∃ s' grow, push room s r = .ok (s', (sq.push grow r).1) ∧
    Holds s' (sq.push grow r).2 := by
  have hsize := len_stores h
  rw [len, SendQueue.len] at hsize
  unfold push
  by_cases hfull : sq.size ≥ devBacklog
  · refine ⟨s, 0, ?_, ?_⟩
    · rw [if_pos (by rw [hsize]; exact_mod_cast hfull), SendQueue.push, if_pos hfull]
    · rw [SendQueue.push, if_pos hfull]
      exact h
  · rw [if_neg (by rw [hsize]; exact_mod_cast hfull)]
    simp only [SendQueue.push, if_neg hfull]
    by_cases hcompact : sq.head > 0 ∧ sq.q.length = sq.cap
    · obtain ⟨s₁, hs₁, hstores, hcap⟩ := h.stores.compact
      refine ⟨s₁.append room r, s₁.q.elems.length + 1 + room, ?_, ?_⟩
      · rw [if_pos (by rw [h.stores.head, h.stores.length, h.cap]; exact hcompact), hs₁, if_pos hcompact]
        rfl
      · rw [if_pos hcompact]
        have hs₁ : Holds s₁ ⟨sq.compact, sq.cap⟩ := ⟨hstores, hcap.trans h.cap⟩
        exact append_holds hs₁ room r
    · refine ⟨s.append room r, s.q.elems.length + 1 + room, ?_, ?_⟩
      · rw [if_neg (by rw [h.stores.head, h.stores.length, h.cap]; exact hcompact), if_neg hcompact]
        rfl
      · rw [if_neg hcompact]
        exact append_holds h room r

theorem pop_stores (h : Holds s sq) : ∃ s', pop s = .ok (s', sq.pop.1.getD default, sq.pop.1.isSome) ∧
    Holds s' sq.pop.2 := by
  unfold pop SendQueue.pop
  by_cases hempty : sq.head = sq.q.length
  · rw [if_pos (by rw [h.stores.head, h.stores.length]; exact hempty), dif_pos hempty]
    exact ⟨s, rfl, h⟩
  · obtain ⟨s', htake, hstores, hcap⟩ := h.stores.take (fun c => decide (c ≤ sendQueueKeep)) (sq.lt_of_ne hempty)
    rw [if_neg (by rw [h.stores.head, h.stores.length]; exact hempty), dif_neg hempty, htake]
    refine ⟨s', rfl, hstores, ?_⟩
    rw [hcap, h.cap]
    simp

end SendSlice

namespace PPSlice

/-- The append of `ppEnqueue` with its compaction.
mirrors src/postprocess.go:159-165 (`ppEnqueue`) -/
def enqueue (room : Nat) (pq : SliceQueue α) (s : α) : Go (SliceQueue α) := do
  let pq ← if pq.head > pq.q.elems.length / 2 then pq.compact else .ok pq
  .ok (pq.append room s)

/-- `none`: the worker waits.
mirrors src/postprocess.go:186-195 (`postProcessWorker`) -/
def dequeue (pq : SliceQueue α) : Go (SliceQueue α × Option α) :=
  if pq.head = pq.q.elems.length then .ok (pq, none)
  else do
    let (pq, s) ← pq.take fun _ => true
    .ok (pq, some s)

variable {s : SliceQueue α} {pq : PPQueue α}

theorem enqueue_stores (h : s.Stores pq) (room : Nat) (x : α) :
    ∃ s', enqueue room s x = .ok s' ∧ s'.Stores (PPQueue.enqueue pq x) := by
  unfold enqueue PPQueue.enqueue
  rw [h.head, h.length]
  by_cases hhalf : pq.head > pq.q.length / 2
  · obtain ⟨s₁, hs₁, hstores, -⟩ := h.compact
    rw [if_pos hhalf, if_pos hhalf, hs₁]
    exact ⟨_, rfl, hstores.append room x⟩
  · rw [if_neg hhalf, if_neg hhalf]
    exact ⟨_, rfl, h.append room x⟩

theorem dequeue_stores (h : s.Stores pq) : ∃ s', dequeue s = .ok (s', (PPQueue.dequeue pq).map Prod.fst) ∧
    s'.Stores (((PPQueue.dequeue pq).map Prod.snd).getD pq) := by
  unfold dequeue PPQueue.dequeue
  by_cases hempty : pq.head = pq.q.length
  · rw [if_pos (by rw [h.head, h.length]; exact hempty), dif_pos hempty]
    exact ⟨s, rfl, h⟩
  · obtain ⟨s', htake, hstores, -⟩ := h.take (fun _ => true) (pq.lt_of_ne hempty)
    rw [if_neg (by rw [h.head, h.length]; exact hempty), dif_neg hempty, htake]
    exact ⟨s', rfl, hstores⟩

end PPSlice

/-! ## Sequences of calls -/

inductive SendCall (α : Type) where
  /-- `append` leaves `room` spare places if it allocates -/
  | push (room : Nat) (r : α)
  | pop
  | len

inductive SendOut (α : Type) where
  | pushed (ok : Bool)
  | popped (r : α) (ok : Bool)
  | len (n : Int)
  deriving DecidableEq

def SendSlice.step (sq : SliceQueue α) : SendCall α → Go (SliceQueue α × SendOut α)
  | .push room r => do
    let (sq, ok) ← push room sq r
    .ok (sq, .pushed ok)
  | .pop => do
    let (sq, r, ok) ← pop sq
    .ok (sq, .popped r ok)
  | .len => .ok (sq, .len (len sq))

/-- A FIFO list that refuses a push when `devBacklog` requests are queued. -/
def boundedStep (l : List α) : SendCall α → List α × SendOut α
  | .push _ r => if l.length = devBacklog then (l, .pushed false) else (l ++ [r], .pushed true)
  | .pop =>
    match l with
    | [] => ([], .popped default false)
    | r :: l => (l, .popped r true)
  | .len => (l, .len l.length)

inductive PPCall (α : Type) where
  | enqueue (room : Nat) (s : α)
  | dequeue

/-- What a call hands out: `none` for an enqueue, and for a dequeue that waits. -/
def PPSlice.step (pq : SliceQueue α) : PPCall α → Go (SliceQueue α × Option α)
  | .enqueue room s => do
    let pq ← enqueue room pq s
    .ok (pq, none)
  | .dequeue => dequeue pq

/-- A FIFO list. -/
def fifoStep (l : List α) : PPCall α → List α × Option α
  | .enqueue _ s => (l ++ [s], none)
  | .dequeue => (l.tail, l.head?)

/-- The slice stores a queue of at most `devBacklog` requests, which are those of `l`. -/
def SendSlice.Queues (s : SliceQueue α) (l : List α) : Prop :=
  ∃ sq, Holds s sq ∧ sq.items = l ∧ l.length ≤ devBacklog

theorem SendSlice.step_queues {s : SliceQueue α} {l : List α} (h : Queues s l) (c : SendCall α) :
    ∃ s', step s c = .ok (s', (boundedStep l c).2) ∧ Queues s' (boundedStep l c).1 := by
  obtain ⟨sq, hs, rfl, hbound⟩ := h
  cases c with
  | push room r =>
    obtain ⟨s', grow, hpush, hs'⟩ := push_stores hs room r
    have hitems := sq.push_items grow r
    rw [step, hpush]
    by_cases hfull : sq.items.length = devBacklog
    · rw [if_neg (by omega)] at hitems
      rw [hitems] at hs' ⊢
      rw [boundedStep, if_pos hfull]
      exact ⟨s', rfl, sq, hs', rfl, hbound⟩
    · rw [if_pos (by omega)] at hitems
      rw [boundedStep, if_neg hfull, hitems.1]
      refine ⟨s', rfl, _, hs', hitems.2, ?_⟩
      rw [List.length_append, List.length_singleton]
      omega
  | pop =>
    obtain ⟨s', hpop, hs'⟩ := pop_stores hs
    obtain ⟨hfirst, hrest⟩ := sq.pop_items
    rw [step, hpop, hfirst]
    refine ⟨s', ?_, _, hs', ?_, ?_⟩
    · cases sq.items with
      | nil => rfl
      | cons r l => rfl
    · rw [hrest]
      cases sq.items with
      | nil => rfl
      | cons r l => rfl
    · cases hl : sq.items with
      | nil => exact Nat.zero_le _
      | cons r l =>
        rw [hl, List.length_cons] at hbound
        exact Nat.le_of_succ_le hbound
  | len => exact ⟨s, by rw [step, len_stores hs, SendQueue.len_items]; rfl, sq, hs, rfl, hbound⟩

/-- The slice stores a queue with the entries of `l`. -/
def PPSlice.Queues (s : SliceQueue α) (l : List α) : Prop := ∃ pq : PPQueue α, s.Stores pq ∧ pq.items = l

theorem PPSlice.step_queues {s : SliceQueue α} {l : List α} (h : Queues s l) (c : PPCall α) :
    ∃ s', step s c = .ok (s', (fifoStep l c).2) ∧ Queues s' (fifoStep l c).1 := by
  obtain ⟨pq, hs, rfl⟩ := h
  cases c with
  | enqueue room x =>
    obtain ⟨s', henq, hs'⟩ := enqueue_stores hs room x
    exact ⟨s', by rw [step, henq]; rfl, _, hs', PPQueue.enqueue_items pq x⟩
  | dequeue =>
    obtain ⟨s', hdeq, hs'⟩ := dequeue_stores hs
    rw [step, hdeq, fifoStep]
    cases hd : PPQueue.dequeue pq with
    | none =>
      rw [hd] at hs'
      have hnil : pq.items = [] := PPQueue.dequeue_none.mp hd
      exact ⟨s', by rw [hnil]; rfl, pq, hs', by rw [hnil]; rfl⟩
    | some r =>
      rw [hd] at hs'
      have hcons := PPQueue.dequeue_items hd
      exact ⟨s', by rw [hcons]; rfl, r.2, hs', by rw [hcons]; rfl⟩

/-- What holds of a queue between calls: the head index is within the slice,
and compacting it now would keep every entry in its place in the order. -/
def Compacts (s : SliceQueue α) : Prop :=
  s.head ≤ s.q.elems.length ∧ ∃ s', s.compact = .ok s' ∧ s'.head = 0 ∧ s'.waiting = s.waiting

theorem compacts_of_stores {s : SliceQueue α} {h : HeadQueue α} (hs : s.Stores h) : Compacts s := by
  obtain ⟨s', hc, hs', -⟩ := hs.compact
  exact ⟨hs.head_le, s', hc, hs'.head, by rw [hs'.waiting, hs.waiting, HeadQueue.items_compact]⟩

/-- **Both queues are FIFO lists.** Every sequence of calls returns what it
returns on a list, whatever room `append` makes, and the slice then holds the
entries of that list in order. -/
theorem queues_fifo (cs : List (SendCall α)) (ps : List (PPCall α)) :
    (∃ s, Go.calls SendSlice.step .nil cs = .ok (s, (Go.specCalls boundedStep [] cs).2) ∧
      s.waiting = (Go.specCalls boundedStep [] cs).1 ∧ Compacts s) ∧
    (∃ s, Go.calls PPSlice.step .nil ps = .ok (s, (Go.specCalls fifoStep [] ps).2) ∧
      s.waiting = (Go.specCalls fifoStep [] ps).1 ∧ Compacts s) := by
  constructor
  · have hnil : SendSlice.Queues (SliceQueue.nil : SliceQueue α) [] := ⟨.empty, SendSlice.nil_holds, rfl, Nat.zero_le _⟩
    obtain ⟨s, hcalls, sq, hs, hitems, -⟩ :=
      Go.calls_refines (R := SendSlice.Queues) (fun _ _ c h => SendSlice.step_queues h c) cs hnil
    exact ⟨s, hcalls, hs.stores.waiting.trans hitems, compacts_of_stores hs.stores⟩
  · have hnil : PPSlice.Queues (SliceQueue.nil : SliceQueue α) [] := ⟨HeadQueue.empty, .nil, rfl⟩
    obtain ⟨s, hcalls, pq, hs, hitems⟩ :=
      Go.calls_refines (R := PPSlice.Queues) (fun _ _ c h => PPSlice.step_queues h c) ps hnil
    exact ⟨s, hcalls, hs.waiting.trans hitems, compacts_of_stores hs⟩

/-- Four sessions taken of five put in: the next enqueue compacts. -/
example : (Go.calls PPSlice.step (.nil : SliceQueue Nat)
    ((List.range 5).map (.enqueue 0) ++ List.replicate 4 .dequeue ++
    [.enqueue 3 5])).test (fun r => r.1.head == 0 && r.1.waiting == [4, 5]) = true := by decide

end KcpGo.L2
