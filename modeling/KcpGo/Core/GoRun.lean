import Mathlib.Data.List.Forall2

/-!
# Go run-time panics

A Go computation that can panic returns `Go α`: `.error` is the panic (the
process dies, no state is left), `.ok` a normal return.
-/
namespace KcpGo

inductive Panic where
  | sliceBounds
  | divideByZero
  | makeslice
  | nilDeref
  /-- a call of `panic` -/
  | explicit (msg : String)
  deriving DecidableEq, Repr

abbrev Go (α : Type) := Except Panic α

namespace Go

variable {α β : Type}

@[simp] theorem ok_bind (a : α) (f : α → Go β) : ((.ok a : Go α) >>= f) = f a := rfl

@[simp] theorem error_bind (e : Panic) (f : α → Go β) : ((.error e : Go α) >>= f) = .error e := rfl

/-- A sequence returns normally exactly when both parts do. -/
theorem bind_ok {x : Go α} {f : α → Go β} {r : β} (h : (x >>= f) = .ok r) :
    ∃ a, x = .ok a ∧ f a = .ok r := by
  cases x with
  | error e => cases h
  | ok a => exact ⟨a, rfl, h⟩

/-- A loop whose every round returns. -/
theorem mapM_ok {f : α → Go β} {g : α → β} {l : List α} (h : ∀ a ∈ l, f a = .ok (g a)) :
    l.mapM f = .ok (l.map g) := by
  induction l with
  | nil => rfl
  | cons a l ih =>
    rw [List.mapM_cons, h a List.mem_cons_self, ih fun b hb => h b (List.mem_cons_of_mem _ hb)]
    rfl

theorem mapM_length {f : α → Go β} : ∀ {l : List α} {m : List β}, l.mapM f = .ok m → m.length = l.length := by
  intro l
  induction l with
  | nil =>
    intro m h
    cases h
    rfl
  | cons a l ih =>
    intro m h
    rw [List.mapM_cons] at h
    obtain ⟨b, -, h⟩ := bind_ok h
    obtain ⟨m', hm, h⟩ := bind_ok h
    cases h
    rw [List.length_cons, List.length_cons, ih hm]

/-- A loop whose rounds turn what is related to the entries of `m` by `Q` into
something related to them by `R`. -/
theorem mapM_forall₂ {γ : Type} {f : α → Go β} {Q : α → γ → Prop} {R : β → γ → Prop} {l : List α} {m : List γ}
    (h : List.Forall₂ Q l m) (hf : ∀ a c, Q a c → ∃ b, f a = .ok b ∧ R b c) :
    ∃ l', l.mapM f = .ok l' ∧ List.Forall₂ R l' m := by
  induction h with
  | nil => exact ⟨[], rfl, .nil⟩
  | cons hq _ ih =>
    obtain ⟨b, hb, hr⟩ := hf _ _ hq
    obtain ⟨l', hl, hl'⟩ := ih
    refine ⟨b :: l', ?_, .cons hr hl'⟩
    rw [List.mapM_cons, hb, hl]
    rfl

/-! ## Runs that compute -/

/-- A test of the returned value. -/
def test (x : Go α) (p : α → Bool) : Bool :=
  match x with
  | .ok a => p a
  | .error _ => false

theorem of_test {x : Go α} {p : α → Bool} (h : x.test p = true) : ∃ a, x = .ok a ∧ p a = true := by
  cases x with
  | ok a => exact ⟨a, rfl, h⟩
  | error e => cases h

/-- A test of how the computation panics. -/
def panics (x : Go α) (e : Panic) : Bool :=
  match x with
  | .ok _ => false
  | .error e' => decide (e' = e)

theorem of_panics {x : Go α} {e : Panic} (h : x.panics e = true) : x = .error e := by
  cases x with
  | ok a => cases h
  | error e' => rw [of_decide_eq_true h]

/-! ## Two runs side by side -/

section
variable {α' β' : Type}

/-- Both runs return related values, or both panic in the same way. -/
def Both (r : α → α' → Prop) : Go α → Go α' → Prop
  | .ok a, .ok a' => r a a'
  | .error p, .error p' => p = p'
  | _, _ => False

theorem Both.ok {r : α → α' → Prop} {a : α} {a' : α'} (h : r a a') : Both r (.ok a) (.ok a') := h

theorem Both.refl (x : Go α) : Both Eq x x := by
  cases x with
  | error p => rfl
  | ok a => rfl

/-- Sequences run side by side when their parts do; the second part may use
that the first returned. -/
theorem Both.bind_of_ok {r : α → α' → Prop} {s : β → β' → Prop} {x : Go α} {x' : Go α'} {f : α → Go β}
    {f' : α' → Go β'} (h : Both r x x') (hf : ∀ a a', x = .ok a → r a a' → Both s (f a) (f' a')) :
    Both s (x >>= f) (x' >>= f') := by
  cases x with
  | error p =>
    cases x' with
    | error p' => exact h
    | ok a' => exact False.elim h
  | ok a =>
    cases x' with
    | error p' => exact False.elim h
    | ok a' => exact hf a a' rfl h

theorem Both.bind {r : α → α' → Prop} {s : β → β' → Prop} {x : Go α} {x' : Go α'} {f : α → Go β}
    {f' : α' → Go β'} (h : Both r x x') (hf : ∀ a a', r a a' → Both s (f a) (f' a')) :
    Both s (x >>= f) (x' >>= f') :=
  h.bind_of_ok fun a a' _ => hf a a'

/-- A test that comes out the same on both sides. -/
theorem rel_ite {r : α → α' → Prop} {c c' : Prop} [Decidable c] [Decidable c'] {x y : α} {x' y' : α'}
    (hc : c' ↔ c) (ht : c → r x x') (he : ¬ c → r y y') :
    r (if c then x else y) (if c' then x' else y') := by
  by_cases h : c
  · rw [if_pos h, if_pos (hc.mpr h)]
    exact ht h
  · rw [if_neg h, if_neg (fun h' => h (hc.mp h'))]
    exact he h

end

end Go
end KcpGo
