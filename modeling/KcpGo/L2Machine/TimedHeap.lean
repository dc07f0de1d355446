import KcpGo.Core.BinHeap
import KcpGo.Core.Cells
import KcpGo.Core.GoLoop
import KcpGo.Core.LTS

/-!
# `timedFuncHeap`: the tasks of a scheduler shard (`timedsched.go:37-81`)

A binary heap by deadline. Its loops are written out in the source and differ
from those of `container/heap` in the order of the comparisons; on deadlines
they do the same (`siftUp_eq`, `siftDown_eq`).

* `push_spec`, `pop_spec`: no task is lost or duplicated, and the heap order is
  kept.
* `head_le`: the first task is due first.

`pushSlice` and `popSlice` are the same operations with the bounds checks of
Go and loops that could run on; `pushSlice_ok` and `popSlice_ok` say that they
end within the slice. `timed_heap` is about every sequence of them.
-/
namespace KcpGo.L2

/-- Times are nanoseconds since the zero `time.Time`.
mirrors src/timedsched.go:36-39 -/
structure TimedFunc (ι : Type) where
  execute : ι
  ts : Int
  deriving DecidableEq

namespace TimedHeap

variable {ι : Type}

/-- `a.ts.Before(b.ts)`. -/
def before (a b : TimedFunc ι) : Bool := decide (a.ts < b.ts)

/-- The loop of `push`, from position `i` to the root. -/
def siftUp : Nat → List (TimedFunc ι) → Nat → List (TimedFunc ι)
  | 0, s, _ => s
  | n + 1, s, i =>
    if i = 0 then s
    else if BinHeap.lessAt before s i ((i - 1) / 2) = false then s
    else siftUp n (BinHeap.swap s ((i - 1) / 2) i) ((i - 1) / 2)

/-- mirrors src/timedsched.go:47-58 (`push`) -/
def push (h : List (TimedFunc ι)) (f : TimedFunc ι) : List (TimedFunc ι) := siftUp h.length (h ++ [f]) h.length

/-- The position with the earliest deadline of `i` and its children below `n`.
mirrors src/timedsched.go:68-74 -/
def earliest (n : Nat) (s : List (TimedFunc ι)) (i : Nat) : Nat :=
  let l := 2 * i + 1
  let m := if l < n ∧ BinHeap.lessAt before s l i = true then l else i
  if l + 1 < n ∧ BinHeap.lessAt before s (l + 1) m = true then l + 1 else m

/-- The loop of `pop`, from position `i` down. -/
def siftDown (n : Nat) : Nat → List (TimedFunc ι) → Nat → List (TimedFunc ι)
  | 0, s, _ => s
  | f + 1, s, i => if earliest n s i = i then s else siftDown n f (BinHeap.swap s i (earliest n s i)) (earliest n s i)

/-- The last task takes the place of the first; `none` on an empty heap.
mirrors src/timedsched.go:60-83 (`pop`) -/
def pop : List (TimedFunc ι) → Option (TimedFunc ι × List (TimedFunc ι))
  | [] => none
  | top :: rest =>
    let s := ((top :: rest).set 0 (rest.getLastD top)).take rest.length
    some (top, siftDown rest.length rest.length s 0)

/-! ## The order -/

/-- Distance of a deadline from a bound below all of them. -/
def key (b : Int) (f : TimedFunc ι) : Nat := (f.ts - b).toNat

theorem keyed {b : Int} {l : List (TimedFunc ι)} (h : ∀ f ∈ l, b ≤ f.ts) : BinHeap.Keyed before (key b) l := by
  intro x hx y hy
  have hbx := h x hx
  have hby := h y hy
  unfold before key
  rw [decide_eq_decide]
  omega

theorem exists_bound (l : List (TimedFunc ι)) : ∃ b, ∀ f ∈ l, b ≤ f.ts := by
  induction l with
  | nil => exact ⟨0, fun f hf => absurd hf List.not_mem_nil⟩
  | cons g l ih =>
    obtain ⟨b, hb⟩ := ih
    refine ⟨min b g.ts, fun f hf => ?_⟩
    rcases List.mem_cons.mp hf with rfl | hf
    · exact Int.min_le_right _ _
    · exact Int.le_trans (Int.min_le_left _ _) (hb f hf)

theorem siftUp_eq (n : Nat) : ∀ (s : List (TimedFunc ι)) (i : Nat), siftUp n s i = BinHeap.upGo before n s i := by
  induction n with
  | zero => intro s i; rfl
  | succ n ih =>
    intro s i
    rw [siftUp, BinHeap.upGo, ih]
    by_cases h0 : i = 0
    · rw [if_pos h0, if_pos (.inl (by omega))]
    · by_cases hl : BinHeap.lessAt before s i ((i - 1) / 2) = false
      · rw [if_neg h0, if_pos hl, if_pos (.inr hl)]
      · have hstop : ¬ ((i - 1) / 2 = i ∨ BinHeap.lessAt before s i ((i - 1) / 2) = false) := by
          rintro (h | h)
          · omega
          · exact hl h
        rw [if_neg h0, if_neg hl, if_neg hstop]

/-- `earliest` moves to the child that `container/heap` compares with, when
that is the earlier one. -/
theorem earliest_eq {n i : Nat} {s : List (TimedFunc ι)} (hn : n ≤ s.length) (hi : i < n) :
    earliest n s i = if 2 * i + 1 < n ∧ BinHeap.lessAt before s (BinHeap.child before n s i) i = true
      then BinHeap.child before n s i else i := by
  obtain ⟨b, hb⟩ := exists_bound s
  have hless {j k : Nat} (hj : j < n) (hk : k < n) :
      BinHeap.lessAt before s j k = decide (BinHeap.keyAt (key b) s j < BinHeap.keyAt (key b) s k) :=
    BinHeap.lessAt_keyed (keyed hb) (by omega) (by omega)
  unfold earliest BinHeap.child
  by_cases hl : 2 * i + 1 < n
  · by_cases hr : 2 * i + 2 < n
    · have hli := hless hl hi
      have hrl := hless hr hl
      have hri := hless hr hi
      -- the right child is before the left one, or not; each against position `i`
      by_cases hkey : BinHeap.keyAt (key b) s (2 * i + 2) < BinHeap.keyAt (key b) s (2 * i + 1)
      · by_cases hroot : BinHeap.keyAt (key b) s (2 * i + 2) < BinHeap.keyAt (key b) s i
        · by_cases hleft : BinHeap.keyAt (key b) s (2 * i + 1) < BinHeap.keyAt (key b) s i
          · simp [hl, hr, hli, hrl, hri, hkey, hroot, hleft]
          · simp [hl, hr, hli, hrl, hri, hkey, hroot, hleft]
        · have hleft : ¬ BinHeap.keyAt (key b) s (2 * i + 1) < BinHeap.keyAt (key b) s i := by omega
          simp [hl, hr, hli, hrl, hri, hkey, hroot, hleft]
      · by_cases hleft : BinHeap.keyAt (key b) s (2 * i + 1) < BinHeap.keyAt (key b) s i
        · simp [hl, hr, hli, hrl, hkey, hleft]
        · have hroot : ¬ BinHeap.keyAt (key b) s (2 * i + 2) < BinHeap.keyAt (key b) s i := by omega
          simp [hl, hr, hli, hrl, hri, hkey, hroot, hleft]
    · simp [hl, hr]
  · have hr : ¬ (2 * i + 2 < n) := by omega
    simp [hl, hr]

theorem siftDown_eq {n : Nat} (f : Nat) : ∀ {s : List (TimedFunc ι)} {i : Nat}, n ≤ s.length → i < n →
    siftDown n f s i = BinHeap.downGo before n f s i := by
  induction f with
  | zero => intro s i _ _; rfl
  | succ f ih =>
    intro s i hn hi
    obtain ⟨b, hb⟩ := exists_bound s
    have hmove := earliest_eq hn hi
    rw [siftDown, BinHeap.downGo]
    by_cases hl : 2 * i + 1 < n
    · obtain ⟨hchild, -, hlt, -⟩ := BinHeap.child_spec (keyed hb) hn hl
      by_cases hless : BinHeap.lessAt before s (BinHeap.child before n s i) i = true
      · rw [if_pos ⟨hl, hless⟩] at hmove
        rw [hmove, if_neg (by omega), if_neg (by omega), if_pos hless,
          ih (by rw [BinHeap.swap_length]; exact hn) hchild]
      · rw [if_neg fun h => hless h.2] at hmove
        rw [if_pos hmove, if_neg (by omega), if_neg hless]
    · rw [if_neg fun h => hl h.1] at hmove
      rw [if_pos hmove, if_pos (by omega)]

/-! ## The operations -/

theorem push_eq (h : List (TimedFunc ι)) (f : TimedFunc ι) : push h f = BinHeap.push before h f := siftUp_eq _ _ _

theorem push_spec {h : List (TimedFunc ι)} (hh : BinHeap.IsHeap before h) (f : TimedFunc ι) :
    (push h f).Perm (f :: h) ∧ BinHeap.IsHeap before (push h f) := by
  obtain ⟨b, hb⟩ := exists_bound (f :: h)
  have hk := keyed hb
  have hperm := BinHeap.push_perm before h f
  rw [push_eq]
  refine ⟨hperm, (BinHeap.isHeap_iff (hk.perm hperm)).mpr (BinHeap.push_heap hk ?_)⟩
  exact (BinHeap.isHeap_iff (hk.subset fun x hx => List.mem_cons_of_mem _ hx)).mp hh

/-- The first task is due first. -/
theorem head_le {f : TimedFunc ι} {h : List (TimedFunc ι)} (hh : BinHeap.IsHeap before (f :: h)) :
    ∀ g ∈ f :: h, f.ts ≤ g.ts := by
  intro g hg
  obtain ⟨b, hb⟩ := exists_bound (f :: h)
  obtain ⟨i, hi, rfl⟩ := List.getElem_of_mem hg
  have hroot := BinHeap.root_le ((BinHeap.isHeap_iff (keyed hb)).mp hh) i hi
  rw [BinHeap.keyAt_get (Nat.succ_pos _), BinHeap.keyAt_get hi] at hroot
  have hbf := hb f List.mem_cons_self
  have hbg := hb _ (List.getElem_mem hi)
  simp only [key, List.getElem_cons_zero] at hroot
  omega

/-- The last task in the place of the first. -/
theorem lastFirst_perm (top : TimedFunc ι) (rest : List (TimedFunc ι)) :
    (((top :: rest).set 0 (rest.getLastD top)).take rest.length).Perm rest := by
  rw [List.set_cons_zero]
  rcases List.eq_nil_or_concat rest with rfl | ⟨l, x, rfl⟩
  · exact .refl _
  · rw [List.concat_eq_append, List.length_append, List.length_singleton, List.take_succ_cons, List.take_left' rfl]
    simp only [List.getLastD_concat]
    exact (List.perm_append_singleton x l).symm

theorem pop_spec {h rest : List (TimedFunc ι)} {top : TimedFunc ι} (hh : BinHeap.IsHeap before h)
    (hpop : pop h = some (top, rest)) :
    (top :: rest).Perm h ∧ BinHeap.IsHeap before rest ∧ h.head? = some top := by
  cases h with
  | nil => cases hpop
  | cons t h =>
    cases hpop
    obtain ⟨b, hb⟩ := exists_bound (top :: h)
    have hperm := lastFirst_perm top h
    have hk : BinHeap.Keyed before (key b) _ :=
      (keyed hb).subset fun x hx => List.mem_cons_of_mem top (hperm.mem_iff.mp hx)
    have hlen := hperm.length_eq
    cases h with
    | nil => exact ⟨.refl _, fun i h0 hi => absurd hi (Nat.not_lt_zero i), rfl⟩
    | cons g h =>
      rw [siftDown_eq _ (Nat.le_of_eq hlen.symm) (Nat.succ_pos _)]
      have hdown := BinHeap.downGo_perm before (g :: h).length (g :: h).length
        (((top :: g :: h).set 0 ((g :: h).getLastD top)).take (g :: h).length) 0
      have hheap := (BinHeap.isHeap_iff (keyed hb)).mp hh
      refine ⟨(hdown.trans hperm).cons _, (BinHeap.isHeap_iff (hk.perm hdown)).mpr ?_, rfl⟩
      rw [hdown.length_eq, hlen]
      refine BinHeap.downGo_heap _ _ _ hk (Nat.le_of_eq hlen.symm)
        (Nat.le_add_left _ _) ⟨fun c h0 hc hne => ?_, fun h0 => absurd h0 (Nat.lt_irrefl 0)⟩
      have hkey {j : Nat} (hj : 0 < j) (hjn : j < (g :: h).length) :
          BinHeap.keyAt (key b) (((top :: g :: h).set 0 ((g :: h).getLastD top)).take (g :: h).length) j =
            BinHeap.keyAt (key b) (top :: g :: h) j := by
        unfold BinHeap.keyAt
        rw [List.getElem?_take, if_pos hjn, List.getElem?_set_ne (by omega)]
      rw [hkey (by omega) (by omega), hkey h0 hc]
      exact hheap c h0 (by rw [List.length_cons]; omega)

/-! ## Bounds and rounds -/

/-- One round of the loop of `push`.
mirrors src/timedsched.go:50-57 -/
def upBody (x : List (TimedFunc ι) × Nat) : Go ((List (TimedFunc ι) × Nat) ⊕ List (TimedFunc ι)) :=
  if x.2 = 0 then .ok (.inr x.1)
  else do
    let p := (x.2 - 1) / 2
    let a ← Cells.load x.1 x.2
    let b ← Cells.load x.1 p
    if a.ts < b.ts then do
      let s ← Cells.store x.1 x.2 b
      let s ← Cells.store s p a
      .ok (.inl (s, p))
    else .ok (.inr x.1)

/-- `if j < n && s[j].ts.Before(s[m].ts) { m = j }`. -/
def pick (n : Nat) (s : List (TimedFunc ι)) (j m : Nat) : Go Nat :=
  if j < n then do
    let a ← Cells.load s j
    let b ← Cells.load s m
    .ok (if a.ts < b.ts then j else m)
  else .ok m

/-- One round of the loop of `pop`.
mirrors src/timedsched.go:67-80 -/
def downBody (n : Nat) (x : List (TimedFunc ι) × Nat) : Go ((List (TimedFunc ι) × Nat) ⊕ List (TimedFunc ι)) := do
  let m ← pick n x.1 (2 * x.2 + 1) x.2
  let m ← pick n x.1 (2 * x.2 + 2) m
  if m = x.2 then .ok (.inr x.1)
  else do
    let a ← Cells.load x.1 x.2
    let b ← Cells.load x.1 m
    let s ← Cells.store x.1 x.2 b
    let s ← Cells.store s m a
    .ok (.inl (s, m))

/-- mirrors src/timedsched.go:47-58 (`push`) -/
def pushSlice (h : List (TimedFunc ι)) (f : TimedFunc ι) : Go (Option (List (TimedFunc ι))) :=
  Go.loop upBody (h.length + 1) (h ++ [f], h.length)

/-- mirrors src/timedsched.go:60-83 (`pop`) -/
def popSlice [Inhabited ι] (h : List (TimedFunc ι)) : Go (Option (TimedFunc ι × List (TimedFunc ι))) := do
  let n := h.length - 1
  let top ← Cells.load h 0
  let last ← Cells.load h n
  let s ← Cells.store h 0 last
  let s ← Cells.store s n ⟨default, 0⟩
  let s ← Cells.range s 0 n
  let s ← Go.loop (downBody n) (n + 1) (s, 0)
  .ok (s.map fun s => (top, s))

section
variable {s : List (TimedFunc ι)} {n i j m : Nat}

theorem load_ok (hi : i < s.length) : Cells.load s i = .ok s[i] := by
  rw [Cells.load, List.getElem?_eq_getElem hi]

theorem lessAt_ok (hi : i < s.length) (hj : j < s.length) :
    BinHeap.lessAt before s i j = decide (s[i].ts < s[j].ts) := by
  rw [BinHeap.lessAt, List.getElem?_eq_getElem hi, List.getElem?_eq_getElem hj]
  rfl

/-- The assignment `s[i], s[j] = s[j], s[i]`, and what follows it. -/
theorem swap_ok {β : Type} (hi : i < s.length) (hj : j < s.length) (k : List (TimedFunc ι) → Go β) :
    (Cells.store s i s[j] >>= fun t => Cells.store t j s[i] >>= k) = k (BinHeap.swap s i j) := by
  rw [BinHeap.swap_eq hi hj, Cells.store, if_pos hi, Go.ok_bind, Cells.store,
    if_pos (by rw [List.length_set]; exact hj), Go.ok_bind]

theorem pick_ok (hn : n ≤ s.length) (hm : m < n) :
    pick n s j m = .ok (if j < n ∧ BinHeap.lessAt before s j m = true then j else m) := by
  unfold pick
  by_cases hj : j < n
  · rw [if_pos hj, load_ok (by omega), load_ok (by omega), lessAt_ok (by omega) (by omega)]
    simp [hj]
  · rw [if_neg hj, if_neg fun h => hj h.1]

/-- A round of the loop of `push`, within the slice. -/
theorem upBody_ok (hi : i < s.length) : upBody (s, i) = .ok
    (if i = 0 ∨ BinHeap.lessAt before s i ((i - 1) / 2) = false then .inr s
      else .inl (BinHeap.swap s ((i - 1) / 2) i, (i - 1) / 2)) := by
  unfold upBody
  by_cases h0 : i = 0
  · rw [if_pos h0, if_pos (.inl h0)]
  · have hp : (i - 1) / 2 < s.length := by omega
    rw [if_neg h0, lessAt_ok hi hp]
    simp only [load_ok hi, load_ok hp, Go.ok_bind]
    by_cases hless : s[i].ts < s[(i - 1) / 2].ts
    · rw [if_pos hless, swap_ok hi hp, if_neg (by simp [h0, hless])]
      rw [BinHeap.swap_eq hi hp, BinHeap.swap_eq hp hi, List.set_comm _ _ (by omega)]
    · rw [if_neg hless, if_pos (.inr (by simp [hless]))]

theorem earliest_spec (n : Nat) (s : List (TimedFunc ι)) (hi : i < n) :
    earliest n s i < n ∧ (earliest n s i = i ∨ i < earliest n s i) := by
  unfold earliest
  dsimp only
  split_ifs <;> omega

/-- A round of the loop of `pop`, within the slice. -/
theorem downBody_ok (hn : n ≤ s.length) (hi : i < n) : downBody n (s, i) = .ok
    (if earliest n s i = i then .inr s else .inl (BinHeap.swap s i (earliest n s i), earliest n s i)) := by
  have hleft : (if 2 * i + 1 < n ∧ BinHeap.lessAt before s (2 * i + 1) i = true then 2 * i + 1 else i) < n := by
    split_ifs with h
    · exact h.1
    · exact hi
  have hlt := (earliest_spec n s hi).1
  have hpick : pick n s (2 * i + 2) _ = .ok (earliest n s i) := pick_ok hn hleft
  rw [downBody, pick_ok hn hi, Go.ok_bind, hpick, Go.ok_bind]
  dsimp only
  by_cases hstop : earliest n s i = i
  · rw [if_pos hstop, if_pos hstop]
  · rw [if_neg hstop, if_neg hstop]
    simp only [load_ok (show i < s.length by omega), load_ok (show earliest n s i < s.length by omega), Go.ok_bind]
    exact swap_ok (by omega) (by omega) _

/-- The loop of `push` breaks after at most `i + 1` rounds. -/
theorem loop_siftUp (n : Nat) : ∀ {s : List (TimedFunc ι)} {i : Nat}, i < s.length → i ≤ n →
    Go.loop upBody (n + 1) (s, i) = .ok (some (siftUp n s i)) := by
  induction n with
  | zero =>
    intro s i hi hle
    refine Go.loop_break ?_
    rw [upBody_ok hi, if_pos (.inl (by omega)), siftUp]
  | succ n ih =>
    intro s i hi hle
    have hround := upBody_ok hi
    rw [siftUp]
    by_cases h0 : i = 0
    · rw [if_pos (.inl h0)] at hround
      rw [if_pos h0, Go.loop_break hround]
    · by_cases hless : BinHeap.lessAt before s i ((i - 1) / 2) = false
      · rw [if_pos (.inr hless)] at hround
        rw [if_neg h0, if_pos hless, Go.loop_break hround]
      · rw [if_neg fun h => h.elim h0 hless] at hround
        rw [if_neg h0, if_neg hless, Go.loop_next hround]
        exact ih (by rw [BinHeap.swap_length]; omega) (by omega)

/-- The loop of `pop` goes down at every round, so it breaks before it leaves
the first `n` elements. -/
theorem loop_siftDown (f : Nat) : ∀ {s : List (TimedFunc ι)} {i : Nat}, n ≤ s.length → i < n → n ≤ i + f →
    Go.loop (downBody n) (f + 1) (s, i) = .ok (some (siftDown n f s i)) := by
  induction f with
  | zero => intro s i _ hi hf; omega
  | succ f ih =>
    intro s i hn hi hf
    have hround := downBody_ok hn hi
    obtain ⟨hlt, hmove⟩ := earliest_spec n s hi
    rw [siftDown]
    by_cases hstop : earliest n s i = i
    · rw [if_pos hstop] at hround
      rw [if_pos hstop, Go.loop_break hround]
    · rw [if_neg hstop] at hround
      rw [if_neg hstop, Go.loop_next hround]
      exact ih (by rw [BinHeap.swap_length]; exact hn) hlt (by omega)

theorem pushSlice_ok (h : List (TimedFunc ι)) (f : TimedFunc ι) : pushSlice h f = .ok (some (push h f)) :=
  loop_siftUp h.length (by simp) (Nat.le_refl _)

theorem popSlice_ok [Inhabited ι] (top : TimedFunc ι) (rest : List (TimedFunc ι)) :
    popSlice (top :: rest) = .ok (pop (top :: rest)) := by
  have hlast : Cells.load (top :: rest) rest.length = .ok (rest.getLastD top) := by
    rcases List.eq_nil_or_concat rest with rfl | ⟨init, a, rfl⟩
    · rfl
    · rw [load_ok (by simp)]
      simp
  have hcut (t : List (TimedFunc ι)) (ht : t.length = rest.length + 1) (g : TimedFunc ι)
      (k : List (TimedFunc ι) → Go (Option (TimedFunc ι × List (TimedFunc ι)))) :
      (Cells.store t rest.length g >>= fun t => Cells.range t 0 rest.length >>= k) = k (t.take rest.length) := by
    rw [Cells.store, if_pos (by omega), Go.ok_bind, Cells.range, if_pos (by rw [List.length_set]; omega),
      List.drop_zero,
      List.take_set_of_le (Nat.le_refl _), Go.ok_bind]
  have hloop : Go.loop (downBody rest.length) (rest.length + 1)
      (((top :: rest).set 0 (rest.getLastD top)).take rest.length, 0) =
      .ok (some (siftDown rest.length rest.length (((top :: rest).set 0 (rest.getLastD top)).take rest.length) 0)) := by
    cases rest with
    | nil => rfl
    | cons g rest => exact loop_siftDown _ (by simp) (by simp) (by simp)
  rw [popSlice, pop, List.length_cons, Nat.add_sub_cancel, load_ok (Nat.succ_pos _), Go.ok_bind, hlast, Go.ok_bind,
    Cells.store, if_pos (show 0 < (top :: rest).length from Nat.succ_pos _), Go.ok_bind,
    hcut _ (by simp), hloop]
  rfl

end

/-! ## Sequences of operations -/

/-- A heap with every task that was pushed and every task that was popped. -/
structure Log (ι : Type) where
  heap : List (TimedFunc ι)
  pushed : List (TimedFunc ι)
  popped : List (TimedFunc ι)

inductive Op (ι : Type) where
  | push (f : TimedFunc ι)
  | pop

/-- A call that panics or does not return is no step. -/
def next [Inhabited ι] (s : Log ι) : Op ι → Option (Log ι)
  | .push f =>
    match pushSlice s.heap f with
    | .ok (some h) => some { s with heap := h, pushed := f :: s.pushed }
    | _ => none
  | .pop =>
    match popSlice s.heap with
    | .ok (some (f, h)) => some { s with heap := h, popped := f :: s.popped }
    | _ => none

def lts [Inhabited ι] : LTS (Log ι) (Op ι) := LTS.ofFn (fun s => s = ⟨[], [], []⟩) next

/-- Nothing is lost, and the heap order holds. -/
structure Kept (s : Log ι) : Prop where
  conserved : s.pushed.Perm (s.heap ++ s.popped)
  heap : BinHeap.IsHeap before s.heap

section
variable [Inhabited ι]

theorem kept_inductive : (lts : LTS (Log ι) (Op ι)).Inductive Kept where
  init := by
    rintro s rfl
    exact ⟨.nil, fun _ _ hi => absurd hi (Nat.not_lt_zero _)⟩
  step := by
    intro s op s' hs hstep
    cases op with
    | push f =>
      change next s (.push f) = some s' at hstep
      rw [next, pushSlice_ok] at hstep
      cases hstep
      obtain ⟨hperm, hheap⟩ := push_spec hs.heap f
      refine ⟨?_, hheap⟩
      exact (hs.conserved.cons f).trans (hperm.symm.append_right _)
    | pop =>
      change next s .pop = some s' at hstep
      rw [next] at hstep
      cases hheap : s.heap with
      | nil =>
        rw [hheap] at hstep
        cases hstep
      | cons top rest =>
        rw [hheap, popSlice_ok] at hstep
        obtain ⟨hperm, hrest, -⟩ := pop_spec (hheap ▸ hs.heap) (rfl : pop (top :: rest) = some _)
        cases hstep
        refine ⟨?_, hrest⟩
        have hall := hs.conserved
        rw [hheap] at hall
        exact (hall.trans (hperm.symm.append_right _)).trans List.perm_middle.symm

/-- After every sequence of calls: the heap holds what was pushed and not
popped, no deadline is before its parent's, `push` returns, and `pop` on a
non-empty heap returns a task with the earliest deadline. -/
theorem timed_heap {s : Log ι} (hs : (lts : LTS (Log ι) (Op ι)).Reachable s) :
    s.pushed.Perm (s.heap ++ s.popped) ∧
    (∀ i (hi : i < s.heap.length), 0 < i → s.heap[(i - 1) / 2].ts ≤ s.heap[i].ts) ∧
    (∀ f, ∃ h, pushSlice s.heap f = .ok (some h)) ∧
    (s.heap ≠ [] → ∃ f h, popSlice s.heap = .ok (some (f, h)) ∧ f ∈ s.heap ∧ ∀ g ∈ s.heap, f.ts ≤ g.ts) := by
  obtain ⟨hall, hheap⟩ := kept_inductive.reachable s hs
  refine ⟨hall, fun i hi h0 => ?_, fun f => ⟨_, pushSlice_ok s.heap f⟩, fun hne => ?_⟩
  · have hparent := hheap i h0 hi
    rw [lessAt_ok hi (by omega)] at hparent
    exact Int.not_lt.mp (of_decide_eq_false hparent)
  · obtain ⟨top, rest, hcons⟩ := List.exists_cons_of_ne_nil hne
    rw [hcons] at hheap ⊢
    exact ⟨top, _, popSlice_ok top rest, List.mem_cons_self, head_le hheap⟩

theorem timed_heap_four : ∃ s : Log Nat, (lts : LTS (Log Nat) (Op Nat)).Reachable s ∧ s.heap ≠ [] ∧
    ∃ f h, popSlice s.heap = .ok (some (f, h)) ∧ f ∈ s.heap ∧ ∀ g ∈ s.heap, f.ts ≤ g.ts := by
  have hplay : ∀ {s}, LTS.play next (fun _ _ => true) (⟨[], [], []⟩ : Log Nat)
      [.push ⟨0, 30⟩, .push ⟨1, 10⟩, .push ⟨2, 10⟩, .pop, .push ⟨3, 20⟩] = some s →
        (lts : LTS (Log Nat) (Op Nat)).Reachable s :=
    fun h => ⟨_, _, rfl, LTS.play_run (fun _ _ _ _ hn => hn) h⟩
  have hs := hplay rfl
  exact ⟨_, hs, by decide, (timed_heap hs).2.2.2 (by decide)⟩

end

end TimedHeap
end KcpGo.L2
