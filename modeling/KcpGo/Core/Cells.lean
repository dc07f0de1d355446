import KcpGo.Core.GoRun
import Mathlib.Data.List.Induction

/-!
# Slices of any element type

A Go slice whose capacity is its length: a list, with the bounds checks of
Go. `default` is the zero value of the element type.

The loops are those of a program that goes over an index range: `zeroLoop`
clears it, `visitUp` and `visitDown` pass every element to a callback that
may change it and may stop the loop. A callback is a function of the elements
it has been shown before and of the present one. Each loop has one lemma
(`zeroLoop_eq`, `visitUp_eq`, `visitDown_eq`): on `pre ++ seg ++ post`, with
the range over `seg`, it does to `seg` what the list function does and leaves
the rest alone.
-/
namespace KcpGo.Cells

variable {α : Type}

/-- `l[i]`. -/
def load (l : List α) (i : Nat) : Go α :=
  match l[i]? with
  | some a => .ok a
  | none => .error .sliceBounds

/-- `l[i] = a`. -/
def store (l : List α) (i : Nat) (a : α) : Go (List α) :=
  if i < l.length then .ok (l.set i a) else .error .sliceBounds

/-- `l[a:b]`. -/
def range (l : List α) (a b : Nat) : Go (List α) :=
  if a ≤ b ∧ b ≤ l.length then .ok ((l.take b).drop a) else .error .sliceBounds

/-- `copy(dst, src)`: the new `dst` and the number of elements copied. -/
def copy (dst src : List α) : List α × Nat :=
  (src.take dst.length ++ dst.drop src.length, min dst.length src.length)

/-- `a % b`. -/
def mod (a b : Nat) : Go Nat := if b = 0 then .error .divideByZero else .ok (a % b)

section
variable {pre seg post l : List α} {a b : α}

theorem load_append (pre post : List α) (a : α) : load (pre ++ a :: post) pre.length = .ok a := by
  simp [load]

theorem store_append (pre post : List α) (a b : α) :
    store (pre ++ a :: post) pre.length b = .ok (pre ++ b :: post) := by
  have hlt : pre.length < (pre ++ a :: post).length := by simp
  rw [store, if_pos hlt, List.set_append_right _ _ (Nat.le_refl _)]
  simp

theorem range_append (pre seg post : List α) {m n : Nat} (hm : m = pre.length) (hn : n = pre.length + seg.length) :
    range (pre ++ seg ++ post) m n = .ok seg := by
  subst hm hn
  have hle : pre.length ≤ pre.length + seg.length ∧ pre.length + seg.length ≤ (pre ++ seg ++ post).length := by simp
  rw [range, if_pos hle, List.take_left' (by simp), List.drop_left]

theorem range_left (pre post : List α) : range (pre ++ post) 0 pre.length = .ok pre := by
  rw [range, if_pos (by simp), List.take_left, List.drop_zero]

theorem range_right (pre post : List α) {m : Nat} (hm : m = pre.length) :
    range (pre ++ post) m (pre ++ post).length = .ok post := by
  rw [range, if_pos (by simp [hm]), List.take_length, List.drop_left' hm.symm]

theorem mod_lt {m n : Nat} (h : m < n) : mod m n = .ok m := by
  rw [mod, if_neg (by omega), Nat.mod_eq_of_lt h]

theorem mod_self {m n : Nat} (h : m = n) (hn : 0 < n) : mod m n = .ok 0 := by
  rw [mod, if_neg (by omega), h, Nat.mod_self]

/-- What fits is copied whole. -/
theorem copy_fit {dst src : List α} (h : src.length ≤ dst.length) :
    copy dst src = (src ++ dst.drop src.length, src.length) := by
  rw [copy, List.take_of_length_le h, Nat.min_eq_right h]

end

/-! ## Clearing -/

section
variable [Inhabited α]

/-- `clear(l[a:b])`. -/
def clear (l : List α) (a b : Nat) : Go (List α) :=
  if a ≤ b ∧ b ≤ l.length then .ok (l.take a ++ List.replicate (b - a) default ++ l.drop b) else .error .sliceBounds

/-- `for i := …; n times; i++ { l[i] = zero }`. -/
def zeroLoop : Nat → Nat → List α → Go (List α)
  | 0, _, l => .ok l
  | n + 1, i, l => do
    let l ← store l i default
    zeroLoop n (i + 1) l

theorem clear_append (pre seg post : List α) {m n : Nat} (hm : m = pre.length) (hn : n = pre.length + seg.length) :
    clear (pre ++ seg ++ post) m n = .ok (pre ++ List.replicate seg.length default ++ post) := by
  subst hm hn
  have hle : pre.length ≤ pre.length + seg.length ∧ pre.length + seg.length ≤ (pre ++ seg ++ post).length := by simp
  have htake : (pre ++ seg ++ post).take pre.length = pre := by rw [List.append_assoc, List.take_left]
  rw [clear, if_pos hle, htake, List.drop_left' (by simp), Nat.add_sub_cancel_left]

theorem zeroLoop_eq (pre seg post : List α) :
    zeroLoop seg.length pre.length (pre ++ seg ++ post) = .ok (pre ++ List.replicate seg.length default ++ post) := by
  induction seg generalizing pre with
  | nil => simp [zeroLoop]
  | cons a seg ih =>
    rw [List.length_cons, zeroLoop, List.append_assoc, List.cons_append, store_append, Go.ok_bind]
    have h := ih (pre ++ [default])
    rw [List.length_append, List.length_singleton] at h
    simpa [List.replicate_succ] using h

end

/-! ## Callbacks -/

/-- What a callback does to an element, and whether it goes on. -/
abbrev Callback (α : Type) := List α → α → α × Bool

/-- A callback over a list: the elements it was shown, in order and after
those of `seen`, the list it leaves, and whether it went through. -/
def visit (fn : Callback α) : List α → List α → List α × List α × Bool
  | seen, [] => (seen, [], true)
  | seen, a :: l =>
    if (fn seen a).2 then
      let r := visit fn (seen ++ [a]) l
      (r.1, (fn seen a).1 :: r.2.1, r.2.2)
    else (seen ++ [a], (fn seen a).1 :: l, false)

/-- `for i := …; n times; i++ { if !fn(&l[i]) { return } }`. -/
def visitUp (fn : Callback α) : Nat → Nat → List α → List α → Go (List α × List α × Bool)
  | 0, _, seen, l => .ok (seen, l, true)
  | n + 1, i, seen, l => do
    let a ← load l i
    let l ← store l i (fn seen a).1
    if (fn seen a).2 then visitUp fn n (i + 1) (seen ++ [a]) l else .ok (seen ++ [a], l, false)

/-- `for i := lo+n-1; i >= lo; i-- { if !fn(&l[i]) { return } }`. -/
def visitDown (fn : Callback α) (lo : Nat) : Nat → List α → List α → Go (List α × List α × Bool)
  | 0, seen, l => .ok (seen, l, true)
  | n + 1, seen, l => do
    let a ← load l (lo + n)
    let l ← store l (lo + n) (fn seen a).1
    if (fn seen a).2 then visitDown fn lo n (seen ++ [a]) l else .ok (seen ++ [a], l, false)

theorem visit_length (fn : Callback α) (seen l : List α) : (visit fn seen l).2.1.length = l.length := by
  induction l generalizing seen with
  | nil => rfl
  | cons a l ih =>
    rw [visit]
    split
    · simp [ih]
    · rfl

/-- Going through one list and then through another. -/
theorem visit_append (fn : Callback α) (seen l₁ l₂ : List α) : visit fn seen (l₁ ++ l₂) =
    if (visit fn seen l₁).2.2 then
      ((visit fn (visit fn seen l₁).1 l₂).1, (visit fn seen l₁).2.1 ++ (visit fn (visit fn seen l₁).1 l₂).2.1,
        (visit fn (visit fn seen l₁).1 l₂).2.2)
    else ((visit fn seen l₁).1, (visit fn seen l₁).2.1 ++ l₂, false) := by
  induction l₁ generalizing seen with
  | nil => simp [visit]
  | cons a l₁ ih =>
    rw [List.cons_append, visit, visit]
    by_cases hgo : (fn seen a).2 = true
    · rw [if_pos hgo, if_pos hgo, ih]
      dsimp only
      split <;> simp
    · rw [if_neg hgo, if_neg hgo]
      simp

theorem visitUp_eq (fn : Callback α) (pre seg post seen : List α) :
    visitUp fn seg.length pre.length seen (pre ++ seg ++ post) =
    .ok ((visit fn seen seg).1, pre ++ (visit fn seen seg).2.1 ++ post, (visit fn seen seg).2.2) := by
  induction seg generalizing pre seen with
  | nil => simp [visitUp, visit]
  | cons a seg ih =>
    rw [List.length_cons, visitUp, List.append_assoc, List.cons_append, load_append, Go.ok_bind,
      store_append, Go.ok_bind, visit]
    split
    · have h := ih (pre ++ [(fn seen a).1]) (seen ++ [a])
      rw [List.length_append, List.length_singleton] at h
      simpa using h
    · simp

theorem visitDown_eq (fn : Callback α) (pre seg post seen : List α) :
    visitDown fn pre.length seg.length seen (pre ++ seg ++ post) =
    .ok ((visit fn seen seg.reverse).1, pre ++ (visit fn seen seg.reverse).2.1.reverse ++ post,
      (visit fn seen seg.reverse).2.2) := by
  induction seg using List.reverseRecOn generalizing post seen with
  | nil => simp [visitDown, visit]
  | append_singleton seg a ih =>
    have hsplit : pre ++ (seg ++ [a]) ++ post = (pre ++ seg) ++ a :: post := by simp
    have hidx : pre.length + seg.length = (pre ++ seg).length := by simp
    rw [List.length_append, List.length_singleton, visitDown, hsplit, hidx, load_append, Go.ok_bind,
      store_append, Go.ok_bind,
      List.reverse_append, List.reverse_singleton, List.singleton_append, visit]
    split
    · rw [ih]
      simp
    · simp

end KcpGo.Cells
