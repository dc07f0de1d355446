import KcpGo.L2Machine.RingBuffer

/-!
# `RingBuffer` is a FIFO list

`Holds r l`: the ring holds the elements `l`, oldest first, and every other
slot is zero. There are two layouts, one constructor for each: the elements
in one piece, or from the head to the end of the slice and on from its start.

One lemma for each operation (`Holds.push`, `Holds.discard`, …) says that it
returns, what it returns and what the ring holds then. `ring_refines`: on any
sequence of calls the ring returns what a plain list returns.
-/
namespace KcpGo.L2

open KcpGo.Cells

variable {α : Type} [Inhabited α]

/-- `n` slots that hold nothing. -/
abbrev zeros (n : Nat) : List α := List.replicate n default

inductive Holds : RingBuffer α → List α → Prop where
  | flat (h z : Nat) (l : List α) (hz : 0 < z) : Holds ⟨h, h + l.length, zeros h ++ l ++ zeros z⟩ l
  | wrapped (z : Nat) (l₁ l₂ : List α) (hz : 0 < z) (hl : l₁ ≠ []) :
    Holds ⟨l₂.length + z, l₂.length, l₂ ++ zeros z ++ l₁⟩ (l₁ ++ l₂)

theorem zeros_add (m n : Nat) : (zeros (m + n) : List α) = zeros m ++ zeros n := List.replicate_add m n default

theorem flat_cap (h z : Nat) (l : List α) : (zeros h ++ l ++ zeros z).length = h + l.length + z := by
  rw [List.length_append, List.length_append, List.length_replicate, List.length_replicate]

theorem wrapped_cap (z : Nat) (l₁ l₂ : List α) : (l₂ ++ zeros z ++ l₁).length = l₂.length + z + l₁.length := by
  rw [List.length_append, List.length_append, List.length_replicate]

/-- The slots from the head up to the tail, around the end of the slice. -/
def RingBuffer.Live (r : RingBuffer α) (j : Nat) : Prop :=
  if r.head ≤ r.tail then r.head ≤ j ∧ j < r.tail else r.head ≤ j ∨ j < r.tail

namespace Holds

variable {r : RingBuffer α} {l : List α}

theorem of_flat {h z : Nat} (hz : 0 < z) (hh : r.head = h) (ht : r.tail = h + l.length)
    (he : r.elements = zeros h ++ l ++ zeros z) : Holds r l := by
  obtain ⟨head, tail, elements⟩ := r
  dsimp only at hh ht he
  subst hh ht he
  exact .flat _ z l hz

theorem of_wrapped {z : Nat} {l₁ l₂ : List α} (hz : 0 < z) (hl : l₁ ≠ []) (hh : r.head = l₂.length + z)
    (ht : r.tail = l₂.length)
    (he : r.elements = l₂ ++ zeros z ++ l₁) : Holds r (l₁ ++ l₂) := by
  obtain ⟨head, tail, elements⟩ := r
  dsimp only at hh ht he
  subst hh ht he
  exact .wrapped z l₁ l₂ hz hl

theorem len (h : Holds r l) : r.len = l.length := by
  cases h with
  | flat h z l hz => simp [RingBuffer.len]
  | wrapped z l₁ l₂ hz hl =>
    rw [RingBuffer.len, if_neg (by simp; omega), wrapped_cap, List.length_append]
    dsimp only
    omega

/-- Head and tail are slots, and one slot is always free. -/
theorem bounds (h : Holds r l) : r.head < r.elements.length ∧ r.tail < r.elements.length ∧
    l.length < r.elements.length := by
  cases h with
  | flat h z l hz =>
    dsimp only
    rw [flat_cap]
    omega
  | wrapped z l₁ l₂ hz hl =>
    have := List.length_pos_iff.mpr hl
    dsimp only
    rw [wrapped_cap, List.length_append]
    omega

theorem isEmpty (h : Holds r l) : r.isEmpty = l.isEmpty := by
  cases h with
  | flat h z l hz =>
    cases l with
    | nil => simp [RingBuffer.isEmpty]
    | cons a l => simp [RingBuffer.isEmpty]
  | wrapped z l₁ l₂ hz hl =>
    rw [RingBuffer.isEmpty, decide_eq_false (by dsimp only; omega)]
    simp [hl]

theorem isFull (h : Holds r l) : r.isFull = .ok (decide (l.length + 1 = r.elements.length)) := by
  unfold RingBuffer.isFull
  cases h with
  | flat h z l hz =>
    dsimp only
    rw [flat_cap]
    by_cases h1 : z = 1
    · subst h1
      rw [mod_self (by omega) (by omega), Go.ok_bind]
      congr 2
      simp only [eq_iff_iff]
      omega
    · rw [mod_lt (by omega), Go.ok_bind]
      congr 2
      simp only [eq_iff_iff]
      omega
  | wrapped z l₁ l₂ hz hl =>
    have hpos := List.length_pos_iff.mpr hl
    dsimp only
    rw [wrapped_cap, mod_lt (by omega), Go.ok_bind, List.length_append]
    congr 2
    simp only [eq_iff_iff]
    omega

/-! ## Push -/

/-- A write that leaves one slot free. -/
theorem put (h : Holds r l) (v : α) (hroom : l.length + 1 < r.elements.length) :
    ∃ r', r.put v = .ok r' ∧ Holds r' (l ++ [v]) ∧ r'.elements.length = r.elements.length := by
  unfold RingBuffer.put
  cases h with
  | flat h z l hz =>
    obtain ⟨z, rfl⟩ := Nat.exists_eq_succ_of_ne_zero (Nat.pos_iff_ne_zero.mp hz)
    dsimp only at hroom ⊢
    rw [flat_cap] at hroom
    have hstore : store (zeros h ++ l ++ zeros (z + 1)) (h + l.length) v = .ok (zeros h ++ (l ++ [v]) ++ zeros z) := by
      have := store_append (zeros h ++ l) (zeros z) default v
      simpa [List.replicate_succ] using this
    rw [hstore, Go.ok_bind, flat_cap, List.length_append, List.length_singleton, flat_cap]
    have hcap : (zeros h ++ (l ++ [v]) ++ zeros z).length = h + l.length + (z + 1) := by
      rw [flat_cap, List.length_append, List.length_singleton]
      omega
    by_cases h0 : z = 0
    · -- the last slot of the slice: the tail goes to its start
      subst h0
      rw [mod_self (by omega) (by omega), Go.ok_bind]
      refine ⟨_, rfl, ?_, hcap⟩
      have hwrap : Holds ⟨h, 0, zeros h ++ (l ++ [v]) ++ zeros 0⟩ ((l ++ [v]) ++ []) :=
        of_wrapped (z := h) (by omega) (by simp) (by simp) rfl (by simp)
      simpa using hwrap
    · rw [mod_lt (by omega), Go.ok_bind]
      refine ⟨_, rfl, of_flat (z := z) (by omega) rfl ?_ rfl, hcap⟩
      rw [List.length_append, List.length_singleton]
      rfl
  | wrapped z l₁ l₂ hz hl =>
    obtain ⟨z, rfl⟩ := Nat.exists_eq_succ_of_ne_zero (Nat.pos_iff_ne_zero.mp hz)
    have hpos := List.length_pos_iff.mpr hl
    dsimp only at hroom ⊢
    rw [wrapped_cap, List.length_append] at hroom
    have hstore : store (l₂ ++ zeros (z + 1) ++ l₁) l₂.length v = .ok ((l₂ ++ [v]) ++ zeros z ++ l₁) := by
      have := store_append l₂ (zeros z ++ l₁) default v
      simpa [List.replicate_succ] using this
    rw [hstore, Go.ok_bind, wrapped_cap, List.length_append, List.length_singleton, mod_lt (by omega),
      Go.ok_bind, wrapped_cap]
    refine ⟨_, rfl, ?_, ?_⟩
    · rw [List.append_assoc l₁ l₂ [v]]
      refine of_wrapped (z := z) (by omega) hl ?_ ?_ rfl
      · rw [List.length_append, List.length_singleton]
        dsimp only
        omega
      · rw [List.length_append, List.length_singleton]
    · dsimp only
      rw [wrapped_cap, List.length_append, List.length_singleton]
      omega

theorem newSize_gt (n : Nat) : n < RingBuffer.newSize n := by
  unfold RingBuffer.newSize RINGBUFFER_MIN RINGBUFFER_EXP
  split
  · omega
  · split <;> omega

/-- A full ring grows: the same elements, in order, from slot 0 on. -/
theorem grow (h : Holds r l) (hfull : l.length + 1 = r.elements.length) (hne : l ≠ []) :
    ∃ r', r.grow = .ok r' ∧ Holds r' l ∧ r'.elements.length = RingBuffer.newSize r.elements.length := by
  have hgt := newSize_gt r.elements.length
  have hpos := List.length_pos_iff.mpr hne
  unfold RingBuffer.grow
  rw [h.len]
  generalize hsize : RingBuffer.newSize r.elements.length = size at hgt ⊢
  -- what is behind the elements in the new slice
  have hrest : ∀ n, (zeros size : List α).drop n = zeros (size - n) := fun n => List.drop_replicate
  have hgrown : Holds (⟨0, l.length, l ++ zeros (size - l.length)⟩ : RingBuffer α) l :=
    of_flat (h := 0) (z := size - l.length) (by omega) rfl (by simp) (by simp)
  have hcap : (l ++ zeros (size - l.length)).length = size := by
    rw [List.length_append, List.length_replicate]
    omega
  refine ⟨⟨0, l.length, l ++ zeros (size - l.length)⟩, ?_, hgrown, hcap⟩
  cases h with
  | flat h z l hz =>
    dsimp only at hfull hgt ⊢
    rw [if_pos (by omega), range_append (zeros h) l (zeros z) (by simp) (by simp), Go.ok_bind,
      copy_fit (by rw [List.length_replicate]; omega), hrest]
  | wrapped z l₁ l₂ hz hl =>
    have hlen := wrapped_cap z l₁ l₂
    have happ : (l₁ ++ l₂).length = l₁.length + l₂.length := List.length_append
    dsimp only at hfull hgt ⊢
    have hupper : range (l₂ ++ zeros z ++ l₁) (l₂.length + z) (l₂ ++ zeros z ++ l₁).length = .ok l₁ :=
      range_right (l₂ ++ zeros z) l₁ (by simp)
    have hlower : range (l₂ ++ zeros z ++ l₁) 0 l₂.length = .ok l₂ := by
      rw [List.append_assoc]
      exact range_left l₂ (zeros z ++ l₁)
    rw [if_neg (by omega), hupper, Go.ok_bind, copy_fit (by rw [List.length_replicate]; omega), hrest]
    dsimp only
    rw [hlower, Go.ok_bind, range_right l₁ _ rfl, Go.ok_bind, copy_fit (by rw [List.length_replicate]; omega),
      List.take_left,
      List.drop_replicate, happ, Nat.sub_sub, List.append_assoc]

/-- `Push` adds at the end, whatever the layout, and the capacity never
shrinks. -/
theorem push (h : Holds r l) (hmin : RINGBUFFER_MIN ≤ r.elements.length) (v : α) :
    ∃ r', r.push v = .ok r' ∧ Holds r' (l ++ [v]) ∧ r.elements.length ≤ r'.elements.length := by
  unfold RingBuffer.push
  rw [h.isFull, Go.ok_bind]
  have hroom := h.bounds.2.2
  by_cases hfull : l.length + 1 = r.elements.length
  · have hne : l ≠ [] := by
      rintro rfl
      unfold RINGBUFFER_MIN at hmin
      simp only [List.length_nil] at hfull
      omega
    obtain ⟨r₁, hg, hh, hcap⟩ := h.grow hfull hne
    have hgt := newSize_gt r.elements.length
    obtain ⟨r₂, hp, hh₂, hcap₂⟩ := hh.put v (by omega)
    rw [decide_eq_true hfull, if_pos rfl, hg, Go.ok_bind]
    exact ⟨r₂, hp, hh₂, by omega⟩
  · obtain ⟨r₂, hp, hh₂, hcap₂⟩ := h.put v (by omega)
    rw [decide_eq_false hfull, if_neg (by simp), Go.ok_bind]
    exact ⟨r₂, hp, hh₂, by omega⟩

/-! ## Pop, Peek and Discard -/

theorem pop_nil (h : Holds r []) : r.pop = .ok (r, default, false) := by
  rw [RingBuffer.pop, h.len, List.length_nil, if_pos rfl]

/-- The oldest element is at the head. -/
theorem front {a : α} (h : Holds r (a :: l)) : ∃ pre post, r.elements = pre ++ a :: post ∧ r.head = pre.length := by
  generalize hl : a :: l = l' at h
  cases h with
  | flat h z l' hz =>
    subst hl
    exact ⟨zeros h, l ++ zeros z, by simp, by simp⟩
  | wrapped z l₁ l₂ hz hl₁ =>
    cases l₁ with
    | nil => exact absurd rfl hl₁
    | cons b l₁ =>
      cases hl
      exact ⟨l₂ ++ zeros z, l₁, rfl, by simp⟩

theorem peek (h : Holds r l) : r.peek = .ok l.head? := by
  unfold RingBuffer.peek
  rw [h.len]
  cases l with
  | nil => rfl
  | cons a l =>
    obtain ⟨pre, post, he, hh⟩ := h.front
    rw [if_neg (by simp), he, hh, load_append, Go.ok_bind]
    rfl

/-- The ring without its oldest `n` elements, when the head stays below the
end of the slice. -/
theorem advance {n : Nat} (h : Holds r l) (hn : n ≤ l.length) (hlt : r.head + n < r.elements.length) :
    ∃ e, Cells.clear r.elements r.head (r.head + n) = .ok e ∧ e.length = r.elements.length ∧
      Holds ⟨r.head + n, r.tail, e⟩ (l.drop n) := by
  cases h with
  | flat h z l hz =>
    obtain ⟨a, b, rfl, rfl⟩ : ∃ a b, l = a ++ b ∧ a.length = n := ⟨l.take n, l.drop n, by simp, by simp; omega⟩
    have hclear := clear_append (zeros h) a (b ++ zeros z) (m := h) (n := h + a.length) (by simp) (by simp)
    refine ⟨zeros h ++ zeros a.length ++ (b ++ zeros z), ?_, by simp [Nat.add_assoc], ?_⟩
    · rw [← hclear]
      simp
    · rw [List.drop_left]
      refine of_flat (h := h + a.length) hz rfl ?_ ?_
      · rw [List.length_append]
        dsimp only
        omega
      · rw [zeros_add]
        simp
  | wrapped z l₁ l₂ hz hl =>
    dsimp only at hlt
    rw [wrapped_cap] at hlt
    obtain ⟨a, b, rfl, rfl⟩ : ∃ a b, l₁ = a ++ b ∧ a.length = n := ⟨l₁.take n, l₁.drop n, by simp, by simp; omega⟩
    rw [List.length_append] at hlt
    have hclear := clear_append (l₂ ++ zeros z) a b (m := l₂.length + z) (n := l₂.length + z + a.length) (by simp)
      (by simp)
    refine ⟨l₂ ++ zeros z ++ zeros a.length ++ b, ?_, by simp [Nat.add_assoc], ?_⟩
    · rw [← hclear]
      simp
    · rw [List.append_assoc a b l₂, List.drop_left]
      refine of_wrapped (z := z + a.length) (by omega) ?_ (Nat.add_assoc _ _ _) rfl ?_
      · rw [← List.length_pos_iff]
        omega
      · rw [zeros_add]
        simp

/-- The same when the head goes around the end. -/
theorem advance_around {n : Nat} (h : Holds r l) (hn : n ≤ l.length) (hge : r.elements.length ≤ r.head + n) :
    ∃ e e', Cells.clear r.elements r.head r.elements.length = .ok e ∧
      Cells.clear e 0 (r.head + n - r.elements.length) = .ok e' ∧ e'.length = r.elements.length ∧
      Holds ⟨r.head + n - r.elements.length, r.tail, e'⟩ (l.drop n) := by
  cases h with
  | flat h z l hz =>
    dsimp only at hge
    rw [flat_cap] at hge
    omega
  | wrapped z l₁ l₂ hz hl =>
    have hcap := wrapped_cap z l₁ l₂
    rw [List.length_append] at hn
    dsimp only at hge ⊢
    obtain ⟨a, b, rfl, ha⟩ : ∃ a b, l₂ = a ++ b ∧ a.length = n - l₁.length :=
      ⟨l₂.take (n - l₁.length), l₂.drop (n - l₁.length), by simp, by simp; omega⟩
    have hlen : (a ++ b).length = a.length + b.length := List.length_append
    have hclear₁ := clear_append (a ++ b ++ zeros z) l₁ [] (m := (a ++ b).length + z)
      (n := (a ++ b ++ zeros z ++ l₁).length) (by simp; omega) (by simp; omega)
    have hclear₂ := clear_append [] a (b ++ zeros z ++ zeros l₁.length) (m := 0) (n := a.length) rfl (by simp)
    have hhead : (a ++ b).length + z + n - (a ++ b ++ zeros z ++ l₁).length = a.length := by omega
    rw [hhead]
    refine ⟨a ++ b ++ zeros z ++ zeros l₁.length, zeros a.length ++ b ++ zeros (z + l₁.length), ?_, ?_, ?_, ?_⟩
    · rw [List.append_nil, List.append_nil] at hclear₁
      exact hclear₁
    · rw [zeros_add]
      simpa using hclear₂
    · rw [flat_cap]
      omega
    · have hdrop : (l₁ ++ (a ++ b)).drop n = b := by
        rw [← List.append_assoc]
        exact List.drop_left' (by rw [List.length_append]; omega)
      rw [hdrop]
      exact of_flat (h := a.length) (by omega) rfl hlen rfl

theorem pop_cons {a : α} (h : Holds r (a :: l)) :
    ∃ r', r.pop = .ok (r', a, true) ∧ Holds r' l ∧ r'.elements.length = r.elements.length := by
  obtain ⟨pre, post, he, hh⟩ := h.front
  have hhead := h.bounds.1
  have hload : load r.elements r.head = .ok a := by rw [he, hh, load_append]
  have hstore : store r.elements r.head default = .ok (pre ++ default :: post) := by rw [he, hh, store_append]
  have hlen : (pre ++ default :: post).length = r.elements.length := by rw [he]; simp
  -- clearing the one slot is what `Discard` does to it
  have hclear : Cells.clear r.elements r.head (r.head + 1) = .ok (pre ++ default :: post) := by
    have := clear_append pre [a] post (m := r.head) (n := r.head + 1) hh (by simp [hh])
    rw [he]
    simpa using this
  unfold RingBuffer.pop
  rw [h.len, if_neg (by simp), hload, Go.ok_bind, hstore, Go.ok_bind, hlen]
  by_cases hlt : r.head + 1 < r.elements.length
  · obtain ⟨e, hc, hcap, hh'⟩ := h.advance (n := 1) (by simp) hlt
    rw [hclear] at hc
    cases hc
    rw [mod_lt hlt, Go.ok_bind]
    exact ⟨_, rfl, hh', hcap⟩
  · obtain ⟨e, e', hc, hc', hcap, hh'⟩ := h.advance_around (n := 1) (by simp) (by omega)
    have hend : r.head + 1 = r.elements.length := by omega
    rw [← hend, hclear] at hc
    cases hc
    rw [hend, Nat.sub_self] at hc' hh'
    have hsame : Cells.clear (pre ++ default :: post) 0 0 = .ok (pre ++ default :: post) := by simp [Cells.clear]
    rw [hsame] at hc'
    cases hc'
    rw [mod_self hend (by omega), Go.ok_bind]
    exact ⟨_, rfl, hh', hcap⟩

theorem clear (h : Holds r l) : ∃ r', r.clear = .ok r' ∧ Holds r' [] ∧ r'.elements.length = r.elements.length := by
  have hroom := h.bounds.2.2
  have hempty : Holds (⟨0, 0, zeros r.elements.length⟩ : RingBuffer α) [] :=
    of_flat (h := 0) (z := r.elements.length) (by omega) rfl rfl (by simp)
  refine ⟨⟨0, 0, zeros r.elements.length⟩, ?_, hempty, by simp⟩
  unfold RingBuffer.clear
  cases h with
  | flat h z l hz =>
    have hzero := zeroLoop_eq (zeros h) l (zeros z)
    rw [List.length_replicate] at hzero
    dsimp only
    rw [if_pos (by omega), Nat.add_sub_cancel_left, hzero, Go.ok_bind, flat_cap, zeros_add, zeros_add]
  | wrapped z l₁ l₂ hz hl =>
    have hzero₁ := zeroLoop_eq (l₂ ++ zeros z) l₁ []
    have hzero₂ := zeroLoop_eq [] l₂ (zeros z ++ zeros l₁.length)
    have hsub : (l₂ ++ zeros z ++ l₁).length - (l₂.length + z) = l₁.length := by rw [wrapped_cap]; omega
    rw [List.append_nil, List.append_nil, List.length_append, List.length_replicate] at hzero₁
    dsimp only
    rw [if_neg (by omega), hsub, hzero₁, Go.ok_bind, List.append_assoc]
    rw [List.nil_append, List.nil_append, List.length_nil] at hzero₂
    rw [hzero₂, Go.ok_bind, wrapped_cap, zeros_add, zeros_add, List.append_assoc]

/-- `Discard` drops as many as there are, at most `n`. -/
theorem discard (h : Holds r l) (n : Int) : ∃ r', r.discard n = .ok (r', (min n.toNat l.length : Nat)) ∧
    Holds r' (l.drop n.toNat) ∧ r'.elements.length = r.elements.length := by
  unfold RingBuffer.discard
  rw [h.len]
  by_cases h0 : n ≤ 0
  · rw [if_pos h0, Int.toNat_of_nonpos h0, Nat.zero_min]
    exact ⟨r, rfl, h, rfl⟩
  rw [if_neg h0]
  dsimp only
  by_cases hall : min n.toNat l.length = l.length
  · obtain ⟨r', hc, hh, hcap⟩ := h.clear
    have hdrop : l.drop n.toNat = [] := List.drop_of_length_le (by omega)
    rw [if_pos hall, hc, Go.ok_bind, hdrop]
    exact ⟨r', rfl, hh, hcap⟩
  · have hmin : min n.toNat l.length = n.toNat := by omega
    rw [if_neg hall, hmin]
    by_cases hlt : r.head + n.toNat < r.elements.length
    · obtain ⟨e, hc, hcap, hh⟩ := h.advance (n := n.toNat) (by omega) hlt
      rw [if_pos hlt, hc, Go.ok_bind]
      exact ⟨_, rfl, hh, hcap⟩
    · obtain ⟨e, e', hc, hc', hcap, hh⟩ := h.advance_around (n := n.toNat) (by omega) (by omega)
      rw [if_neg hlt, hc, Go.ok_bind, hc', Go.ok_bind]
      exact ⟨_, rfl, hh, hcap⟩

/-! ## At, ForEach and ForEachReverse -/

/-- The slot of the `i`-th element, in either layout. -/
theorem slot {i : Nat} (h : Holds r l) (hi : i < l.length) : ∃ pre a post, r.elements = pre ++ a :: post ∧
    r.slot i = pre.length ∧ l[i]? = some a ∧ ∀ v, Holds { r with elements := pre ++ v :: post } (l.set i v) := by
  have split : ∀ {l : List α} {i : Nat}, i < l.length → ∃ p a q, l = p ++ a :: q ∧ p.length = i :=
    fun {l i} hi => ⟨l.take i, l[i], l.drop (i + 1), by simp, by simp; omega⟩
  cases h with
  | flat h z l hz =>
    obtain ⟨p, a, q, rfl, rfl⟩ := split hi
    refine ⟨zeros h ++ p, a, q ++ zeros z, by simp, ?_, by simp, fun v => ?_⟩
    · unfold RingBuffer.slot
      dsimp only
      rw [if_neg (by rw [flat_cap]; push_cast; simp; omega)]
      simp
    · refine of_flat (h := h) hz rfl ?_ ?_
      · simp
      · simp
  | wrapped z l₁ l₂ hz hl =>
    have hcap := wrapped_cap z l₁ l₂
    rw [List.length_append] at hi
    by_cases hlt : i < l₁.length
    · obtain ⟨p, a, q, rfl, rfl⟩ := split hlt
      refine ⟨l₂ ++ zeros z ++ p, a, q, by simp, ?_, by simp, fun v => ?_⟩
      · unfold RingBuffer.slot
        dsimp only
        rw [if_neg (by rw [hcap, List.length_append, List.length_cons]; push_cast; omega)]
        simp
        omega
      · have hset : (p ++ a :: q ++ l₂).set p.length v = p ++ v :: q ++ l₂ := by simp
        rw [hset]
        exact of_wrapped (z := z) hz (by simp) rfl rfl (by simp)
    · obtain ⟨p, a, q, rfl, hp⟩ := split (show i - l₁.length < l₂.length by omega)
      refine ⟨p, a, q ++ zeros z ++ l₁, by simp, ?_, ?_, fun v => ?_⟩
      · unfold RingBuffer.slot
        dsimp only
        rw [if_pos (by rw [hcap]; push_cast; omega), hcap]
        push_cast
        omega
      · rw [List.getElem?_append_right (by omega), ← hp]
        simp
      · rw [List.set_append_right _ _ (by omega), ← hp, List.set_append_right _ _ (Nat.le_refl _),
          Nat.sub_self, List.set_cons_zero]
        exact of_wrapped (z := z) hz hl (by simp) (by simp) (by simp)

theorem at_eq {i : Int} (h : Holds r l) (h0 : 0 ≤ i) (hi : i < l.length) : r.at i = .ok (l.getD i.toNat default) := by
  obtain ⟨n, rfl⟩ := Int.eq_ofNat_of_zero_le h0
  obtain ⟨pre, a, post, he, hs, hget, -⟩ := h.slot (show n < l.length by omega)
  rw [RingBuffer.at, hs, if_neg (by omega), Int.toNat_natCast, he, load_append, Int.toNat_natCast,
    List.getD_eq_getElem?_getD, hget]
  rfl

theorem setAt {i : Int} (h : Holds r l) (h0 : 0 ≤ i) (hi : i < l.length) (v : α) :
    ∃ r', r.setAt i v = .ok r' ∧ Holds r' (l.set i.toNat v) ∧ r'.elements.length = r.elements.length := by
  obtain ⟨n, rfl⟩ := Int.eq_ofNat_of_zero_le h0
  obtain ⟨pre, a, post, he, hs, -, hset⟩ := h.slot (show n < l.length by omega)
  rw [RingBuffer.setAt, hs, if_neg (by omega), Int.toNat_natCast, he, store_append, Go.ok_bind]
  exact ⟨_, rfl, hset v, by simp⟩

/-- The callback is shown the elements in order, until it stops. -/
theorem forEach (h : Holds r l) (fn : Callback α) : ∃ r', r.forEach fn = .ok (r', (visit fn [] l).1) ∧
    Holds r' (visit fn [] l).2.1 ∧ r'.elements.length = r.elements.length := by
  unfold RingBuffer.forEach
  rw [h.len]
  by_cases h0 : l.length = 0
  · have hnil := List.eq_nil_of_length_eq_zero h0
    subst hnil
    exact ⟨r, rfl, h, rfl⟩
  rw [if_neg h0]
  cases h with
  | flat h z l hz =>
    have hvisit := visitUp_eq fn (zeros h) l (zeros z) []
    have hlen := visit_length fn [] l
    rw [List.length_replicate] at hvisit
    dsimp only
    rw [if_pos (by omega), Nat.add_sub_cancel_left, hvisit, Go.ok_bind]
    refine ⟨_, rfl, of_flat (h := h) hz rfl ?_ rfl, ?_⟩
    · rw [hlen]
    · dsimp only
      rw [flat_cap, flat_cap, hlen]
  | wrapped z l₁ l₂ hz hl =>
    have hvisit₁ := visitUp_eq fn (l₂ ++ zeros z) l₁ [] []
    have hlen₁ := visit_length fn [] l₁
    have hsub : (l₂ ++ zeros z ++ l₁).length - (l₂.length + z) = l₁.length := by rw [wrapped_cap]; omega
    have hne : (visit fn [] l₁).2.1 ≠ [] := by
      rw [← List.length_pos_iff, hlen₁]
      exact List.length_pos_iff.mpr hl
    rw [List.append_nil, List.append_nil, List.length_append, List.length_replicate] at hvisit₁
    dsimp only
    rw [if_neg (by omega), hsub, hvisit₁, Go.ok_bind, visit_append]
    dsimp only
    by_cases hcont : (visit fn [] l₁).2.2 = true
    · have hvisit₂ := visitUp_eq fn [] l₂ (zeros z ++ (visit fn [] l₁).2.1) (visit fn [] l₁).1
      have hlen₂ := visit_length fn (visit fn [] l₁).1 l₂
      rw [List.nil_append, List.nil_append, List.length_nil] at hvisit₂
      rw [if_pos hcont, if_pos hcont, List.append_assoc, hvisit₂, Go.ok_bind]
      refine ⟨_, rfl, of_wrapped (z := z) hz hne ?_ ?_ ?_, ?_⟩
      · rw [hlen₂]
      · rw [hlen₂]
      · rw [List.append_assoc]
      · dsimp only
        rw [← List.append_assoc, wrapped_cap, wrapped_cap, hlen₁, hlen₂]
    · rw [if_neg hcont, if_neg hcont]
      refine ⟨_, rfl, of_wrapped (z := z) hz hne rfl rfl rfl, ?_⟩
      dsimp only
      rw [wrapped_cap, wrapped_cap, hlen₁]

/-- The callback is shown the elements from the last one on. -/
theorem forEachReverse (h : Holds r l) (fn : Callback α) :
    ∃ r', r.forEachReverse fn = .ok (r', (visit fn [] l.reverse).1) ∧ Holds r' (visit fn [] l.reverse).2.1.reverse ∧
      r'.elements.length = r.elements.length := by
  unfold RingBuffer.forEachReverse
  rw [h.len]
  by_cases h0 : l.length = 0
  · have hnil := List.eq_nil_of_length_eq_zero h0
    subst hnil
    exact ⟨r, rfl, h, rfl⟩
  rw [if_neg h0]
  cases h with
  | flat h z l hz =>
    have hvisit := visitDown_eq fn (zeros h) l (zeros z) []
    have hlen : (visit fn [] l.reverse).2.1.reverse.length = l.length := by
      rw [List.length_reverse, visit_length, List.length_reverse]
    rw [List.length_replicate] at hvisit
    dsimp only
    rw [if_pos (by omega), Nat.add_sub_cancel_left, hvisit, Go.ok_bind]
    refine ⟨_, rfl, of_flat (h := h) hz rfl ?_ rfl, ?_⟩
    · rw [hlen]
    · dsimp only
      rw [flat_cap, flat_cap, hlen]
  | wrapped z l₁ l₂ hz hl =>
    -- the piece at the start of the slice holds the newest elements
    have hvisit₂ := visitDown_eq fn [] l₂ (zeros z ++ l₁) []
    have hlen₂ : (visit fn [] l₂.reverse).2.1.reverse.length = l₂.length := by
      rw [List.length_reverse, visit_length, List.length_reverse]
    rw [List.nil_append, List.nil_append, List.length_nil, ← List.append_assoc, ← List.append_assoc] at hvisit₂
    dsimp only
    rw [if_neg (by omega), hvisit₂, Go.ok_bind, List.reverse_append, visit_append]
    dsimp only
    by_cases hcont : (visit fn [] l₂.reverse).2.2 = true
    · have hvisit₁ := visitDown_eq fn ((visit fn [] l₂.reverse).2.1.reverse ++ zeros z) l₁ [] (visit fn [] l₂.reverse).1
      have hlen₁ : (visit fn (visit fn [] l₂.reverse).1 l₁.reverse).2.1.reverse.length = l₁.length := by
        rw [List.length_reverse, visit_length, List.length_reverse]
      have hne : (visit fn (visit fn [] l₂.reverse).1 l₁.reverse).2.1.reverse ≠ [] := by
        rw [← List.length_pos_iff, hlen₁]
        exact List.length_pos_iff.mpr hl
      have hsub : ((visit fn [] l₂.reverse).2.1.reverse ++ zeros z ++ l₁).length - (l₂.length + z) = l₁.length := by
        rw [wrapped_cap, hlen₂]
        omega
      rw [List.append_nil, List.append_nil, List.length_append, List.length_replicate, hlen₂] at hvisit₁
      rw [if_pos hcont, if_pos hcont, hsub, hvisit₁, Go.ok_bind, List.reverse_append]
      refine ⟨_, rfl, of_wrapped (z := z) hz hne ?_ ?_ rfl, ?_⟩
      · rw [hlen₂]
      · rw [hlen₂]
      · dsimp only
        rw [wrapped_cap, wrapped_cap, hlen₁, hlen₂]
    · rw [if_neg hcont, if_neg hcont, List.reverse_append, List.reverse_reverse]
      refine ⟨_, rfl, of_wrapped (z := z) hz hl ?_ ?_ rfl, ?_⟩
      · rw [hlen₂]
      · rw [hlen₂]
      · dsimp only
        rw [wrapped_cap, wrapped_cap, hlen₂]

/-- Every slot outside the live range is zero. -/
theorem zero_outside (h : Holds r l) {j : Nat} (hj : j < r.elements.length) (hout : ¬ r.Live j) :
    r.elements[j]? = some default := by
  unfold RingBuffer.Live at hout
  cases h with
  | flat h z l hz =>
    dsimp only at hout hj ⊢
    rw [flat_cap] at hj
    rw [if_pos (by omega)] at hout
    by_cases hlt : j < h
    · rw [List.append_assoc, List.getElem?_append_left (by simpa using hlt), List.getElem?_replicate, if_pos hlt]
    · rw [List.getElem?_append_right (by simp; omega), List.getElem?_replicate, if_pos (by simp; omega)]
  | wrapped z l₁ l₂ hz hl =>
    dsimp only at hout hj ⊢
    rw [if_neg (by omega)] at hout
    rw [List.append_assoc, List.getElem?_append_right (by omega), List.getElem?_append_left (by simp; omega),
      List.getElem?_replicate, if_pos (by omega)]

end Holds

/-! ## Sequences of calls -/

theorem holds_new (size : Int) : Holds (RingBuffer.new size : RingBuffer α) [] ∧
    RINGBUFFER_MIN ≤ (RingBuffer.new size : RingBuffer α).elements.length := by
  have hcap : ∃ n, RINGBUFFER_MIN ≤ n ∧ (RingBuffer.new size : RingBuffer α) = ⟨0, 0, zeros n⟩ := by
    refine ⟨_, ?_, rfl⟩
    split <;> omega
  obtain ⟨n, hn, hnew⟩ := hcap
  have hpos : 0 < n := Nat.lt_of_lt_of_le (by decide) hn
  rw [hnew]
  exact ⟨.of_flat (h := 0) hpos rfl rfl (by simp), by simpa using hn⟩

/-- **One call**: the ring returns what the list returns, and holds what the
list is then. -/
theorem Holds.step {r : RingBuffer α} {l : List α} (h : Holds r l) (hmin : RINGBUFFER_MIN ≤ r.elements.length)
    {c : RingCall α}
    (hc : c.Allowed l) : ∃ r', r.step c = .ok (r', (listStep l c).2) ∧ Holds r' (listStep l c).1 ∧
      r.elements.length ≤ r'.elements.length := by
  cases c with
  | push v =>
    obtain ⟨r', hp, hh, hle⟩ := h.push hmin v
    refine ⟨r', ?_, hh, hle⟩
    rw [RingBuffer.step, hp]
    rfl
  | pop =>
    cases l with
    | nil =>
      refine ⟨r, ?_, h, Nat.le_refl _⟩
      rw [RingBuffer.step, h.pop_nil]
      rfl
    | cons a l =>
      obtain ⟨r', hp, hh, heq⟩ := h.pop_cons
      refine ⟨r', ?_, hh, Nat.le_of_eq heq.symm⟩
      rw [RingBuffer.step, hp]
      rfl
  | peek =>
    refine ⟨r, ?_, h, Nat.le_refl _⟩
    rw [RingBuffer.step, h.peek]
    rfl
  | discard n =>
    obtain ⟨r', hd, hh, heq⟩ := h.discard n
    refine ⟨r', ?_, hh, Nat.le_of_eq heq.symm⟩
    rw [RingBuffer.step, hd]
    rfl
  | clear =>
    obtain ⟨r', hd, hh, heq⟩ := h.clear
    refine ⟨r', ?_, hh, Nat.le_of_eq heq.symm⟩
    rw [RingBuffer.step, hd]
    rfl
  | «at» i =>
    refine ⟨r, ?_, h, Nat.le_refl _⟩
    rw [RingBuffer.step, h.at_eq hc.1 hc.2]
    rfl
  | setAt i v =>
    obtain ⟨r', hs, hh, heq⟩ := h.setAt hc.1 hc.2 v
    refine ⟨r', ?_, hh, Nat.le_of_eq heq.symm⟩
    rw [RingBuffer.step, hs]
    rfl
  | forEach fn =>
    obtain ⟨r', hs, hh, heq⟩ := h.forEach fn
    refine ⟨r', ?_, hh, Nat.le_of_eq heq.symm⟩
    rw [RingBuffer.step, hs]
    rfl
  | forEachReverse fn =>
    obtain ⟨r', hs, hh, heq⟩ := h.forEachReverse fn
    refine ⟨r', ?_, hh, Nat.le_of_eq heq.symm⟩
    rw [RingBuffer.step, hs]
    rfl
  | len =>
    refine ⟨r, ?_, h, Nat.le_refl _⟩
    rw [RingBuffer.step, h.len]
    rfl
  | isEmpty =>
    refine ⟨r, ?_, h, Nat.le_refl _⟩
    rw [RingBuffer.step, h.isEmpty]
    rfl

/-- The calls one after the other, and what each returned. -/
def RingBuffer.run (r : RingBuffer α) : List (RingCall α) → Go (RingBuffer α × List (RingOut α))
  | [] => .ok (r, [])
  | c :: cs => do
    let (r, o) ← r.step c
    let (r, os) ← r.run cs
    .ok (r, o :: os)

def listRun (l : List α) : List (RingCall α) → List α × List (RingOut α)
  | [] => (l, [])
  | c :: cs => ((listRun (listStep l c).1 cs).1, (listStep l c).2 :: (listRun (listStep l c).1 cs).2)

/-- `At` is called with an index of the list each time. -/
def AllAllowed (l : List α) : List (RingCall α) → Prop
  | [] => True
  | c :: cs => c.Allowed l ∧ AllAllowed (listStep l c).1 cs

theorem Holds.run {cs : List (RingCall α)} : ∀ {r : RingBuffer α} {l : List α}, Holds r l →
    RINGBUFFER_MIN ≤ r.elements.length → AllAllowed l cs →
    ∃ r', r.run cs = .ok (r', (listRun l cs).2) ∧ Holds r' (listRun l cs).1 ∧ RINGBUFFER_MIN ≤ r'.elements.length := by
  induction cs with
  | nil => exact fun h hmin _ => ⟨_, rfl, h, hmin⟩
  | cons c cs ih =>
    intro r l h hmin hall
    obtain ⟨r₁, hs, hh, hle⟩ := h.step hmin hall.1
    obtain ⟨r₂, hr, hh₂, hmin₂⟩ := ih hh (Nat.le_trans hmin hle) hall.2
    refine ⟨r₂, ?_, hh₂, hmin₂⟩
    rw [RingBuffer.run, hs, Go.ok_bind]
    dsimp only
    rw [hr]
    rfl

/-- What holds of the ring between calls: the indices are slots, every slot
outside the live range is zero, and a full ring grows into a larger one with
the same elements in the same order. -/
structure RingBuffer.Sound (r : RingBuffer α) : Prop where
  head : r.head < r.elements.length
  tail : r.tail < r.elements.length
  zero : ∀ j < r.elements.length, ¬ r.Live j → r.elements[j]? = some default
  grow : r.isFull = .ok true → ∃ r', r.grow = .ok r' ∧ r.elements.length < r'.elements.length ∧ r'.len = r.len ∧
    ∀ i : Nat, i < r.len → r'.at i = r.at i

theorem Holds.sound {r : RingBuffer α} {l : List α} (h : Holds r l) (hmin : RINGBUFFER_MIN ≤ r.elements.length) :
    r.Sound := by
  have hb := h.bounds
  refine ⟨hb.1, hb.2.1, fun j => h.zero_outside, fun hfull => ?_⟩
  rw [h.isFull] at hfull
  have hlen : l.length + 1 = r.elements.length := by simpa using hfull
  have hne : l ≠ [] := by
    rintro rfl
    have : RINGBUFFER_MIN = 8 := rfl
    rw [List.length_nil] at hlen
    omega
  obtain ⟨r', hg, hh, hcap⟩ := h.grow hlen hne
  have hgt := Holds.newSize_gt r.elements.length
  refine ⟨r', hg, by omega, by rw [hh.len, h.len], fun i hi => ?_⟩
  rw [h.len] at hi
  rw [hh.at_eq (by omega) (by omega), h.at_eq (by omega) (by omega)]

/-- **The ring buffer refines a list.** For every size and every sequence of
calls, what the calls return is what they return on a list. -/
theorem ring_refines (size : Int) (cs : List (RingCall α)) (hc : AllAllowed [] cs) :
    ∃ r, (RingBuffer.new size : RingBuffer α).run cs = .ok (r, (listRun [] cs).2) ∧ r.Sound := by
  obtain ⟨hnew, hmin⟩ := holds_new (α := α) size
  obtain ⟨r, hr, hh, hmin'⟩ := hnew.run hmin hc
  exact ⟨r, hr, hh.sound hmin'⟩

/-- A ring of 8 slots that grows, and is then discarded across its end. -/
def ringCalls : List (RingCall Nat) :=
  (List.range 8).map .push ++ [.discard 6, .push 8, .at 1, .forEachReverse fun _ a => (a + 10, decide (a ≠ 7)), .pop,
    .len]

theorem ring_refines_grown : AllAllowed [] ringCalls ∧ ∃ r, (RingBuffer.new (-3) : RingBuffer Nat).run ringCalls =
    .ok (r, (listRun [] ringCalls).2) ∧ r.Sound := by
  have hall : AllAllowed [] ringCalls := by
    simp [ringCalls, List.range_succ, AllAllowed, RingCall.Allowed, listStep]
  exact ⟨hall, ring_refines (-3) ringCalls hall⟩

end KcpGo.L2
