import Mathlib.Data.List.Infix

/-!
# Histories of numbered things

A log records events of things numbered by naturals; `history log i` are the
events of thing `i`, oldest first. A step adds at most one event to each of a
row of consecutive things (`row`).

`Sparse`: with events that may happen once (`once`) and events after which
they may happen again (`reset`), every stretch of a history without a reset
has at most one. It is kept when an event is added, if a further one is added
only after a reset (`Sparse.append`).
-/
namespace KcpGo.Histories

variable {α : Type}

def history (log : List (Nat × α)) (i : Nat) : List α := (log.filter fun e => e.1 == i).map Prod.snd

@[simp] theorem history_append (l l' : List (Nat × α)) (i : Nat) :
    history (l ++ l') i = history l i ++ history l' i := by
  simp [history]

/-- The events `as` of the things `b`, `b + 1`, … -/
def row : Nat → List (Option α) → List (Nat × α)
  | _, [] => []
  | b, none :: as => row (b + 1) as
  | b, some a :: as => (b, a) :: row (b + 1) as

/-- A thing before the row has no event in it. -/
theorem history_row_before {b i : Nat} (h : i < b) (as : List (Option α)) : history (row b as) i = [] := by
  induction as generalizing b with
  | nil => rfl
  | cons a as ih =>
    cases a with
    | none => exact ih (by omega)
    | some a =>
      have hne : (b == i) = false := by simp; omega
      have := ih (b := b + 1) (by omega)
      simp only [history] at this ⊢
      rw [row, List.filter_cons_of_neg (by simp [hne]), this]

/-- Each thing of the row has at most its own event. -/
theorem history_row (b j : Nat) (as : List (Option α)) : history (row b as) (b + j) = (as[j]?.join).toList := by
  induction as generalizing b j with
  | nil => rfl
  | cons a as ih =>
    cases j with
    | zero =>
      have hrest := history_row_before (Nat.lt_succ_self b) as
      cases a with
      | none => simpa [row] using hrest
      | some a =>
        simp only [history, row, Nat.add_zero] at hrest ⊢
        rw [List.filter_cons_of_pos (by simp), List.map_cons, hrest]
        rfl
    | succ j =>
      have hrest := ih (b + 1) j
      rw [show b + 1 + j = b + (j + 1) by omega] at hrest
      cases a with
      | none => simpa [row] using hrest
      | some a =>
        simp only [history, row] at hrest ⊢
        rw [List.filter_cons_of_neg (by simp), hrest]
        rfl

/-! ## Once between resets -/

variable (once reset : α → Bool)

/-- A stretch of a history without a reset. -/
def Quiet (l : List α) : Prop := ∀ a ∈ l, reset a = false

def Sparse (h : List α) : Prop := ∀ l, l <:+: h → Quiet reset l → l.countP once ≤ 1

/-- One has happened since the last reset. -/
def Spent (h : List α) : Prop := ∃ l, l <:+ h ∧ Quiet reset l ∧ 0 < l.countP once

variable {once reset} {h : List α} {a : α}

theorem sparse_nil : Sparse once reset [] := by
  intro l hl _
  rw [List.eq_nil_of_infix_nil hl]
  simp

theorem not_spent_nil : ¬ Spent once reset [] := by
  intro hs
  obtain ⟨l, hl, -, hpos⟩ := hs
  rw [List.suffix_nil.mp hl] at hpos
  simp at hpos

/-- After a further event one has happened if it is one, or if it is no reset
and one had happened. -/
theorem Spent.append (hs : Spent once reset (h ++ [a])) : once a = true ∨ (reset a = false ∧ Spent once reset h) := by
  obtain ⟨l, hl, hq, hpos⟩ := hs
  rcases List.suffix_concat_iff.mp hl with rfl | ⟨t, rfl, ht⟩
  · simp at hpos
  · by_cases hone : once a = true
    · exact .inl hone
    · refine .inr ⟨hq a (by simp), t, ht, fun x hx => hq x (by simp [hx]), ?_⟩
      simpa [hone] using hpos

/-- A further event keeps the history sparse, if it is one only when none has
happened since the last reset. -/
theorem Sparse.append (hs : Sparse once reset h) (ha : once a = true → ¬ Spent once reset h) :
    Sparse once reset (h ++ [a]) := by
  intro l hl hq
  rcases List.infix_concat_iff.mp hl with hl | hl
  · rcases List.suffix_concat_iff.mp hl with rfl | ⟨t, rfl, ht⟩
    · simp
    · have hq' : Quiet reset t := fun x hx => hq x (by simp [hx])
      rw [List.countP_append]
      by_cases hone : once a = true
      · have : t.countP once = 0 := by
          rcases Nat.eq_zero_or_pos (t.countP once) with h0 | hpos
          · exact h0
          · exact absurd ⟨t, ht, hq', hpos⟩ (ha hone)
        simp [this, hone]
      · have := hs t ht.isInfix hq'
        simpa [hone] using this
  · exact hs l hl hq

end KcpGo.Histories
