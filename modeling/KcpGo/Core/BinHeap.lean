/-!
# The binary heap of `container/heap`

`up`, `down`, `push` and `pop` over a list, with the comparison as a
parameter: the loops of Go's `container/heap`, on the slice its `Interface`
wraps. The loop counters are bounded by the index they move (`upGo`,
`downGo` take that bound as fuel, and never run out of it).

The comparison need not be an order on the whole type. `Keyed` asks only
that on the elements at hand it compares a numeric key; that is what a
circular comparison gives inside a window. Under it:

* `push_perm`, `pop_perm`: no element is lost or duplicated;
* `push_heap`, `pop_heap`: the heap order is kept;
* `pop_min`: `pop` returns an element with the least key.

`upGo_map`, `downGo_map`, `push_map`, `pop_map`: the operations commute with any
relabelling of the elements that the comparison does not see.
-/
namespace KcpGo.BinHeap

variable {α β : Type}
variable {i j n : Nat} {l rest : List α} {less : α → α → Bool} {key : α → Nat}

/-- `h.Swap(i, j)`. -/
def swap (l : List α) (i j : Nat) : List α :=
  match l[i]?, l[j]? with
  | some x, some y => (l.set i y).set j x
  | _, _ => l

/-- `h.Less(i, j)`. -/
def lessAt (less : α → α → Bool) (l : List α) (i j : Nat) : Bool :=
  match l[i]?, l[j]? with
  | some x, some y => less x y
  | _, _ => false

/-- The loop of `up`: move position `j` towards the root. -/
def upGo (less : α → α → Bool) : Nat → List α → Nat → List α
  | 0, l, _ => l
  | n + 1, l, j =>
    if (j - 1) / 2 = j ∨ lessAt less l j ((j - 1) / 2) = false then l
    else upGo less n (swap l ((j - 1) / 2) j) ((j - 1) / 2)

def up (less : α → α → Bool) (l : List α) (j : Nat) : List α := upGo less j l j

/-- The child `down` compares position `i` with: the smaller one below `n`. -/
def child (less : α → α → Bool) (n : Nat) (l : List α) (i : Nat) : Nat :=
  if 2 * i + 2 < n ∧ lessAt less l (2 * i + 2) (2 * i + 1) = true then 2 * i + 2 else 2 * i + 1

/-- The loop of `down` over the first `n` positions. -/
def downGo (less : α → α → Bool) (n : Nat) : Nat → List α → Nat → List α
  | 0, l, _ => l
  | f + 1, l, i =>
    if n ≤ 2 * i + 1 then l
    else if lessAt less l (child less n l i) i = true then
      downGo less n f (swap l i (child less n l i)) (child less n l i)
    else l

def down (less : α → α → Bool) (l : List α) (i n : Nat) : List α := downGo less n n l i

/-- `heap.Push`. -/
def push (less : α → α → Bool) (l : List α) (x : α) : List α := up less (l ++ [x]) l.length

/-- `heap.Pop` up to the final `h.Pop()`: the root stands in the last slot. -/
def popReady (less : α → α → Bool) (l : List α) : List α :=
  down less (swap l 0 (l.length - 1)) 0 (l.length - 1)

/-- `heap.Pop`; `none` on an empty heap. -/
def pop (less : α → α → Bool) (l : List α) : Option (α × List α) :=
  ((popReady less l)[l.length - 1]?).map fun x => (x, (popReady less l).take (l.length - 1))

/-! ## Permutation -/

theorem swap_eq (hi : i < l.length) (hj : j < l.length) :
    swap l i j = (l.set i l[j]).set j l[i] := by
  simp only [swap, List.getElem?_eq_getElem hi, List.getElem?_eq_getElem hj]

theorem swap_perm (l : List α) (i j : Nat) : (swap l i j).Perm l := by
  unfold swap
  split
  · rename_i x y hx hy
    obtain ⟨hi, rfl⟩ := List.getElem?_eq_some_iff.mp hx
    obtain ⟨hj, rfl⟩ := List.getElem?_eq_some_iff.mp hy
    exact List.set_set_perm hi hj
  · exact List.Perm.refl _

@[simp] theorem swap_length (l : List α) (i j : Nat) : (swap l i j).length = l.length :=
  (swap_perm l i j).length_eq

theorem upGo_perm (less : α → α → Bool) : ∀ (n : Nat) (l : List α) (j : Nat), (upGo less n l j).Perm l
  | 0, _, _ => List.Perm.refl _
  | n + 1, l, j => by
    unfold upGo; split
    · exact List.Perm.refl _
    · exact (upGo_perm less n _ _).trans (swap_perm _ _ _)

theorem downGo_perm (less : α → α → Bool) (n : Nat) :
    ∀ (f : Nat) (l : List α) (i : Nat), (downGo less n f l i).Perm l
  | 0, _, _ => List.Perm.refl _
  | f + 1, l, i => by
    unfold downGo; split
    · exact List.Perm.refl _
    · split
      · exact (downGo_perm less n f _ _).trans (swap_perm _ _ _)
      · exact List.Perm.refl _

theorem push_perm (less : α → α → Bool) (l : List α) (x : α) : (push less l x).Perm (x :: l) :=
  (upGo_perm less _ _ _).trans (List.perm_append_comm : (l ++ [x]).Perm ([x] ++ l))

@[simp] theorem push_length (less : α → α → Bool) (l : List α) (x : α) :
    (push less l x).length = l.length + 1 := (push_perm less l x).length_eq

theorem popReady_perm (less : α → α → Bool) (l : List α) : (popReady less l).Perm l :=
  (downGo_perm less _ _ _ _).trans (swap_perm _ _ _)

@[simp] theorem popReady_length (less : α → α → Bool) (l : List α) :
    (popReady less l).length = l.length := (popReady_perm less l).length_eq

theorem pop_nil (less : α → α → Bool) : pop less ([] : List α) = none := rfl

theorem pop_isSome (less : α → α → Bool) (h : l ≠ []) : (pop less l).isSome = true := by
  have : 0 < l.length := List.length_pos_iff.mpr h
  simp [pop]; omega

theorem pop_perm {x : α} (h : pop less l = some (x, rest)) :
    (x :: rest).Perm l := by
  simp only [pop, Option.map_eq_some_iff, Prod.mk.injEq] at h
  obtain ⟨y, hy, rfl, rfl⟩ := h
  obtain ⟨hlt, rfl⟩ := List.getElem?_eq_some_iff.mp hy
  rw [popReady_length] at hlt
  have hsplit := List.take_append_drop (l.length - 1) (popReady less l)
  have hlast : (popReady less l).drop (l.length - 1) = [(popReady less l)[l.length - 1]] := by
    rw [List.drop_eq_getElem_cons (by simpa using hlt), List.drop_of_length_le (by simp; omega)]
  rw [hlast] at hsplit
  refine (List.perm_append_comm : ([_] ++ _ : List α).Perm _).trans ?_
  rw [hsplit]; exact popReady_perm less l

theorem pop_length {x : α} (h : pop less l = some (x, rest)) :
    rest.length + 1 = l.length := (pop_perm h).length_eq

/-! ## Order -/

/-- Key of the element at position `i` (0 past the end). -/
def keyAt (key : α → Nat) (l : List α) (i : Nat) : Nat := (l[i]?.map key).getD 0

/-- On the elements of `l` the comparison compares keys. -/
def Keyed (less : α → α → Bool) (key : α → Nat) (l : List α) : Prop :=
  ∀ x ∈ l, ∀ y ∈ l, less x y = decide (key x < key y)

theorem Keyed.perm {l' : List α} (h : Keyed less key l)
    (hp : l'.Perm l) : Keyed less key l' :=
  fun x hx y hy => h x (hp.mem_iff.mp hx) y (hp.mem_iff.mp hy)

theorem Keyed.subset {l' : List α} (h : Keyed less key l)
    (hs : ∀ x ∈ l', x ∈ l) : Keyed less key l' :=
  fun x hx y hy => h x (hs x hx) y (hs y hy)

/-- Every element is at or after its parent among the first `n`. -/
def HeapTo (key : α → Nat) (n : Nat) (l : List α) : Prop :=
  ∀ i, 0 < i → i < n → keyAt key l ((i - 1) / 2) ≤ keyAt key l i

/-- The heap order in terms of the comparison: no element is before its parent. -/
def IsHeap (less : α → α → Bool) (l : List α) : Prop :=
  ∀ i, 0 < i → i < l.length → lessAt less l i ((i - 1) / 2) = false

theorem keyAt_get (h : i < l.length) :
    keyAt key l i = key l[i] := by simp [keyAt, h]

theorem lessAt_keyed (hk : Keyed less key l)
    (hi : i < l.length) (hj : j < l.length) :
    lessAt less l i j = decide (keyAt key l i < keyAt key l j) := by
  simp only [lessAt, List.getElem?_eq_getElem hi, List.getElem?_eq_getElem hj, keyAt_get hi,
    keyAt_get hj]
  exact hk _ (List.getElem_mem hi) _ (List.getElem_mem hj)

theorem isHeap_iff (hk : Keyed less key l) :
    IsHeap less l ↔ HeapTo key l.length l := by
  refine ⟨fun h i h0 hi => ?_, fun h i h0 hi => ?_⟩
  · have := h i h0 hi
    rw [lessAt_keyed hk hi (by omega)] at this
    simpa using this
  · rw [lessAt_keyed hk hi (by omega)]
    simpa using h i h0 hi

theorem keyAt_swap (key : α → Nat) (hi : i < l.length) (hj : j < l.length)
    (k : Nat) : keyAt key (swap l i j) k =
      if k = j then keyAt key l i else if k = i then keyAt key l j else keyAt key l k := by
  rw [swap_eq hi hj]
  unfold keyAt
  rw [List.getElem?_set]
  simp only [List.length_set]
  by_cases h1 : k = j
  · subst h1; simp [hi, hj]
  · rw [if_neg (fun h => h1 h.symm), if_neg h1, List.getElem?_set]
    by_cases h2 : k = i
    · subst h2; simp [hi, hj]
    · rw [if_neg (fun h => h2 h.symm), if_neg h2]

/-- What `up` needs at `j`: only the pair above `j` may be out of order. -/
structure UpReady (key : α → Nat) (l : List α) (j : Nat) : Prop where
  other : ∀ i, 0 < i → i < l.length → i ≠ j → keyAt key l ((i - 1) / 2) ≤ keyAt key l i
  below : 0 < j → ∀ c, 0 < c → c < l.length → (c - 1) / 2 = j →
    keyAt key l ((j - 1) / 2) ≤ keyAt key l c

theorem upGo_heap :
    ∀ (n : Nat) (l : List α) (j : Nat), Keyed less key l → j ≤ n → j < l.length → UpReady key l j →
      HeapTo key l.length (upGo less n l j)
  | 0, l, j, _, hn, _, hu => by
    intro i h0 hi; exact hu.other i h0 hi (by omega)
  | n + 1, l, j, hk, hn, hj, hu => by
    have hp : (j - 1) / 2 < l.length := by omega
    unfold upGo; split
    · rename_i hstop
      intro i h0 hi
      by_cases hij : i = j
      · subst hij
        rcases hstop with h | h
        · omega
        · rw [lessAt_keyed hk hj hp] at h
          simpa using h
      · exact hu.other i h0 hi hij
    · rename_i hgo
      simp only [not_or, Bool.not_eq_false] at hgo
      rw [lessAt_keyed hk hj hp, decide_eq_true_eq] at hgo
      have key_eq := fun k => keyAt_swap key hp hj k
      have ready : UpReady key (swap l ((j - 1) / 2) j) ((j - 1) / 2) := by
        refine ⟨fun i h0 hi hne => ?_, fun hpos c h0 hc hpc => ?_⟩
        · rw [swap_length] at hi
          rw [key_eq, key_eq]
          by_cases hij : i = j
          · subst hij
            rw [if_neg (by omega), if_pos rfl, if_pos rfl]; omega
          · rw [if_neg hij, if_neg hne]
            by_cases hpi : (i - 1) / 2 = j
            · rw [if_pos hpi]; exact hu.below (by omega) i h0 hi hpi
            · rw [if_neg hpi]
              have := hu.other i h0 hi hij
              split <;> rename_i h2
              · rw [h2] at this; omega
              · exact this
        · rw [swap_length] at hc
          rw [key_eq, key_eq]
          have hup := hu.other _ hpos hp (by omega)
          rw [if_neg (by omega), if_neg (by omega)]
          split
          · exact hup
          · rename_i hcj
            rw [if_neg (by omega)]
            have := hu.other c h0 hc hcj
            rw [hpc] at this; omega
      have := upGo_heap n _ _ (hk.perm (swap_perm _ _ _)) (by omega) (by simpa using hp) ready
      simpa using this

/-- What `down` needs at `i` among the first `n`: only the pairs below `i`
may be out of order. -/
structure DownReady (key : α → Nat) (n : Nat) (l : List α) (i : Nat) : Prop where
  other : ∀ c, 0 < c → c < n → (c - 1) / 2 ≠ i → keyAt key l ((c - 1) / 2) ≤ keyAt key l c
  below : 0 < i → ∀ c, 0 < c → c < n → (c - 1) / 2 = i → keyAt key l ((i - 1) / 2) ≤ keyAt key l c

theorem child_spec
    (hk : Keyed less key l) (hn : n ≤ l.length) (hc : 2 * i + 1 < n) :
    child less n l i < n ∧ (child less n l i - 1) / 2 = i ∧ i < child less n l i ∧
      ∀ c, 0 < c → c < n → (c - 1) / 2 = i → keyAt key l (child less n l i) ≤ keyAt key l c := by
  have two : ∀ c, 0 < c → (c - 1) / 2 = i → c = 2 * i + 1 ∨ c = 2 * i + 2 := by omega
  unfold child
  split
  · rename_i h
    obtain ⟨h2, hl⟩ := h
    rw [lessAt_keyed hk (by omega) (by omega), decide_eq_true_eq] at hl
    refine ⟨h2, by omega, by omega, fun c h0 hcn hp => ?_⟩
    rcases two c h0 hp with rfl | rfl <;> omega
  · rename_i h
    refine ⟨hc, by omega, by omega, fun c h0 hcn hp => ?_⟩
    rcases two c h0 hp with rfl | rfl
    · exact Nat.le_refl _
    · rw [lessAt_keyed hk (by omega) (by omega), decide_eq_true_eq] at h
      omega

theorem downGo_heap :
    ∀ (f : Nat) (l : List α) (i : Nat), Keyed less key l → n ≤ l.length → n ≤ i + f →
      DownReady key n l i → HeapTo key n (downGo less n f l i)
  | 0, l, i, _, _, hf, hd => by
    intro c h0 hc; exact hd.other c h0 hc (by omega)
  | f + 1, l, i, hk, hn, hf, hd => by
    unfold downGo; split
    · intro c h0 hc; exact hd.other c h0 hc (by omega)
    · rename_i hlt
      obtain ⟨hjn, hjp, hij, hmin⟩ := child_spec hk hn (by omega : 2 * i + 1 < n)
      generalize child less n l i = j at *
      have hi : i < l.length := by omega
      have hj : j < l.length := by omega
      have key_eq := fun k => keyAt_swap key hi hj k
      split
      · rename_i hl
        rw [lessAt_keyed hk hj hi, decide_eq_true_eq] at hl
        refine downGo_heap f _ _ (hk.perm (swap_perm _ _ _)) (by simpa using hn) (by omega) ?_
        refine ⟨fun c h0 hc hne => ?_, fun _ c h0 hc hpc => ?_⟩
        · rw [key_eq, key_eq, if_neg hne]
          by_cases hcj : c = j
          · subst hcj; rw [if_pos hjp, if_pos rfl]; omega
          · rw [if_neg hcj]
            by_cases hci : c = i
            · subst hci
              rw [if_neg (by omega), if_pos rfl]
              exact hd.below h0 j (by omega) hjn hjp
            · rw [if_neg hci]
              split
              · rename_i hpi; exact hmin c h0 hc hpi
              · rename_i hpi; exact hd.other c h0 hc hpi
        · rw [key_eq, key_eq, if_neg (by omega), if_pos hjp, if_neg (by omega), if_neg (by omega)]
          have := hd.other c h0 hc (by omega)
          rwa [hpc] at this
      · rename_i hl
        rw [lessAt_keyed hk hj hi, decide_eq_true_eq] at hl
        intro c h0 hc
        by_cases hpi : (c - 1) / 2 = i
        · have := hmin c h0 hc hpi; rw [hpi]; omega
        · exact hd.other c h0 hc hpi

theorem push_heap {x : α}
    (hk : Keyed less key (x :: l)) (hh : HeapTo key l.length l) :
    HeapTo key (push less l x).length (push less l x) := by
  have happ : ∀ i, i < l.length → keyAt key (l ++ [x]) i = keyAt key l i := by
    intro i hi; simp [keyAt, List.getElem?_append_left hi]
  have hk' : Keyed less key (l ++ [x]) := hk.perm (List.perm_append_comm : (l ++ [x]).Perm ([x] ++ l))
  rw [push_length]
  have := upGo_heap l.length (l ++ [x]) l.length hk' (Nat.le_refl _) (by simp) ⟨?_, ?_⟩
  · simpa [push, up] using this
  · intro i h0 hi hne
    simp only [List.length_append, List.length_singleton] at hi
    rw [happ i (by omega), happ _ (by omega)]
    exact hh i h0 (by omega)
  · intro _ c _ hc hpc
    simp only [List.length_append, List.length_singleton] at hc
    omega

/-- The root of a heap has the least key. -/
theorem root_le (hh : HeapTo key n l) :
    ∀ i, i < n → keyAt key l 0 ≤ keyAt key l i := by
  intro i
  induction i using Nat.strongRecOn with
  | ind i ih =>
    intro hi
    by_cases h0 : i = 0
    · subst h0; exact Nat.le_refl _
    · exact Nat.le_trans (ih ((i - 1) / 2) (by omega) (by omega)) (hh i (by omega) hi)

/-- `down` over the first `n` slots leaves the slots from `n` on alone. -/
theorem downGo_tail :
    ∀ (f : Nat) (l : List α) (i : Nat), n ≤ l.length → i < n ∨ n = 0 → ∀ k, n ≤ k →
      (downGo less n f l i)[k]? = l[k]?
  | 0, _, _, _, _, _, _ => rfl
  | f + 1, l, i, hn, hi, k, hk => by
    unfold downGo; split
    · rfl
    · rename_i hlt
      split
      · have hjn : child less n l i < n := by unfold child; split <;> omega
        rw [downGo_tail f _ _ (by simpa using hn) (.inl hjn) k hk,
          swap_eq (by omega) (by omega), List.getElem?_set_ne (by omega), List.getElem?_set_ne (by omega)]
      · rfl

theorem popReady_last (less : α → α → Bool) (l : List α) :
    (popReady less l)[l.length - 1]? = l[0]? := by
  unfold popReady down
  by_cases h : l = []
  · subst h; rfl
  · have hpos : 0 < l.length := List.length_pos_iff.mpr h
    rw [downGo_tail _ _ _ (by simp) (by omega) _ (Nat.le_refl _),
      swap_eq hpos (by omega), List.getElem?_set]
    simp only [List.length_set, if_pos (show l.length - 1 < l.length by omega), if_true]
    exact (List.getElem?_eq_getElem hpos).symm

theorem pop_heap {x : α}
    (hk : Keyed less key l) (hh : HeapTo key l.length l) (h : pop less l = some (x, rest)) :
    HeapTo key rest.length rest := by
  have hlen := pop_length h
  simp only [pop, Option.map_eq_some_iff, Prod.mk.injEq] at h
  obtain ⟨y, -, -, rfl⟩ := h
  have hn : l.length - 1 < l.length := by omega
  have hheap : HeapTo key (l.length - 1) (popReady less l) := by
    refine downGo_heap _ _ _ (hk.perm (swap_perm _ _ _)) (by simp) (by omega) ⟨?_, ?_⟩
    · intro c h0 hc hne
      rw [keyAt_swap key (by omega) hn, keyAt_swap key (by omega) hn, if_neg (by omega), if_neg hne,
        if_neg (by omega), if_neg (by omega)]
      exact hh c h0 (by omega)
    · intro h0; omega
  intro i h0 hi
  have hi' : i < l.length - 1 := by simp at hi; omega
  have := hheap i h0 hi'
  simp only [keyAt, List.getElem?_take, if_pos hi', if_pos (show (i - 1) / 2 < l.length - 1 by omega)]
  exact this

/-- `pop` returns an element with the least key. -/
theorem pop_min {x : α}
    (hh : HeapTo key l.length l) (h : pop less l = some (x, rest)) : ∀ y ∈ l, key x ≤ key y := by
  simp only [pop, Option.map_eq_some_iff, Prod.mk.injEq] at h
  obtain ⟨z, hz, rfl, -⟩ := h
  rw [popReady_last] at hz
  obtain ⟨h0, rfl⟩ := List.getElem?_eq_some_iff.mp hz
  intro y hy
  obtain ⟨i, hi, rfl⟩ := List.getElem_of_mem hy
  have := root_le hh i hi
  rwa [keyAt_get h0, keyAt_get hi] at this

/-! ## Relabelling -/

section map
variable {f : α → β} {less : α → α → Bool} {less' : β → β → Bool}

theorem swap_map (l : List α) (i j : Nat) : swap (l.map f) i j = (swap l i j).map f := by
  unfold swap
  simp only [List.getElem?_map]
  cases l[i]? <;> cases l[j]? <;> simp [List.map_set]

theorem lessAt_map (hf : ∀ x y, less' (f x) (f y) = less x y) (l : List α) (i j : Nat) :
    lessAt less' (l.map f) i j = lessAt less l i j := by
  unfold lessAt
  simp only [List.getElem?_map]
  cases l[i]? <;> cases l[j]? <;> simp [hf]

theorem upGo_map (hf : ∀ x y, less' (f x) (f y) = less x y) :
    ∀ (n : Nat) (l : List α) (j : Nat), upGo less' n (l.map f) j = (upGo less n l j).map f
  | 0, _, _ => rfl
  | n + 1, l, j => by
    simp only [upGo, lessAt_map hf, swap_map]
    split
    · rfl
    · exact upGo_map hf n _ _

theorem child_map (hf : ∀ x y, less' (f x) (f y) = less x y) (n : Nat) (l : List α) (i : Nat) :
    child less' n (l.map f) i = child less n l i := by
  simp only [child, lessAt_map hf]

theorem downGo_map (hf : ∀ x y, less' (f x) (f y) = less x y) (n : Nat) :
    ∀ (k : Nat) (l : List α) (i : Nat), downGo less' n k (l.map f) i = (downGo less n k l i).map f
  | 0, _, _ => rfl
  | k + 1, l, i => by
    simp only [downGo, child_map hf, lessAt_map hf, swap_map]
    split
    · rfl
    · split
      · exact downGo_map hf n k _ _
      · rfl

theorem push_map (hf : ∀ x y, less' (f x) (f y) = less x y) (l : List α) (x : α) :
    push less' (l.map f) (f x) = (push less l x).map f := by
  simp only [push, up, List.length_map]
  rw [show l.map f ++ [f x] = (l ++ [x]).map f by simp]
  exact upGo_map hf _ _ _

theorem pop_map (hf : ∀ x y, less' (f x) (f y) = less x y) (l : List α) :
    pop less' (l.map f) = (pop less l).map fun p => (f p.1, p.2.map f) := by
  have hr : popReady less' (l.map f) = (popReady less l).map f := by
    simp only [popReady, down, List.length_map, swap_map]
    exact downGo_map hf _ _ _ _
  simp only [pop, hr, List.length_map, List.getElem?_map, Option.map_map, ← List.map_take]
  rfl

end map
end KcpGo.BinHeap
