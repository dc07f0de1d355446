import KcpGo.Core.GoRun

/-!
# Go code over a state that survives a panic

`GoM σ α` changes a state and returns or panics; unlike with a function into
`Go (σ × α)`, what happened to the state before a panic is kept. `wp x E Q s`:
started in `s`, `x` returns some `a` in a state with `Q a`, or panics in a
state with `E`.
-/
namespace KcpGo

abbrev GoM (σ α : Type) := EStateM Panic σ α

namespace GoM

variable {σ α β : Type}

/-- A computation that does not see the state. -/
def call : Go α → GoM σ α
  | .ok a => pure a
  | .error e => throw e

/-- `x` with `defer d` before it: `d` runs at the end of `x`, at a panic too. -/
def deferred (x : GoM σ α) (d : GoM σ Unit) : GoM σ α := fun s =>
  match x s with
  | .ok a s => (d >>= fun _ => pure a) s
  | .error e s => (d >>= fun _ => throw e) s

/-- The state at the end, or at the panic. -/
def final (x : GoM σ α) (s : σ) : σ :=
  match x.run s with
  | .ok _ s => s
  | .error _ s => s

def wp (x : GoM σ α) (E : Panic → σ → Prop) (Q : α → σ → Prop) (s : σ) : Prop :=
  match x.run s with
  | .ok a s => Q a s
  | .error e s => E e s

section
variable {E : Panic → σ → Prop} {s : σ}

@[simp] theorem wp_pure (a : α) {Q : α → σ → Prop} : wp (pure a) E Q s ↔ Q a s := Iff.rfl

@[simp] theorem wp_bind (x : GoM σ α) (f : α → GoM σ β) {Q : β → σ → Prop} :
    wp (x >>= f) E Q s ↔ wp x E (fun a => wp (f a) E Q) s := by
  show (match EStateM.bind x f s with
    | .ok a s => Q a s
    | .error e s => E e s) ↔ (match x s with
    | .ok a s => wp (f a) E Q s
    | .error e s => E e s)
  unfold EStateM.bind
  cases x s <;> rfl

@[simp] theorem wp_get {Q : σ → σ → Prop} : wp (get : GoM σ σ) E Q s ↔ Q s s := Iff.rfl

@[simp] theorem wp_set (s' : σ) {Q : PUnit → σ → Prop} : wp (set s' : GoM σ PUnit) E Q s ↔ Q ⟨⟩ s' := Iff.rfl

@[simp] theorem wp_modify (f : σ → σ) {Q : PUnit → σ → Prop} : wp (modify f : GoM σ PUnit) E Q s ↔ Q ⟨⟩ (f s) := Iff.rfl

theorem wp_call (g : Go α) {Q : α → σ → Prop} : wp (call g) E Q s ↔
    (∀ a, g = .ok a → Q a s) ∧ ∀ e, g = .error e → E e s := by
  cases g with
  | ok a =>
    constructor
    · intro h
      refine ⟨fun b hb => ?_, fun e he => nomatch he⟩
      cases hb
      exact h
    · exact fun h => h.1 a rfl
  | error e =>
    constructor
    · intro h
      refine ⟨fun b hb => (nomatch hb), fun e' he => ?_⟩
      cases he
      exact h
    · exact fun h => h.2 e rfl

theorem wp_mono {x : GoM σ α} {E' : Panic → σ → Prop} {Q Q' : α → σ → Prop} (h : wp x E Q s)
    (hE : ∀ e s, E e s → E' e s)
    (hQ : ∀ a s, Q a s → Q' a s) : wp x E' Q' s := by
  unfold wp at h ⊢
  cases hx : x.run s with
  | ok a s' =>
    rw [hx] at h
    exact hQ _ _ h
  | error e s' =>
    rw [hx] at h
    exact hE _ _ h

theorem wp_deferred {x : GoM σ α} {d : GoM σ Unit} {Q : α → σ → Prop}
    (h : wp x (fun e => wp d E fun _ => E e) (fun a => wp d E fun _ => Q a) s) : wp (deferred x d) E Q s := by
  unfold wp EStateM.run at h
  cases hx : x s with
  | ok a s' =>
    rw [hx] at h
    have hd : deferred x d s = (d >>= fun _ => pure a) s' := by
      unfold deferred
      rw [hx]
    unfold wp EStateM.run
    rw [hd]
    exact (wp_bind d fun _ => pure a).2 h
  | error e s' =>
    rw [hx] at h
    have hd : deferred x d s = (d >>= fun _ => throw e) s' := by
      unfold deferred
      rw [hx]
    unfold wp EStateM.run
    rw [hd]
    exact (wp_bind d fun _ => throw e).2 h

/-- What holds at the end in both cases. -/
theorem wp_final {x : GoM σ α} {P : σ → Prop} (h : wp x (fun _ => P) (fun _ => P) s) : P (x.final s) := by
  unfold wp at h
  unfold final
  cases hx : x.run s with
  | ok a s' =>
    rw [hx] at h
    exact h
  | error e s' =>
    rw [hx] at h
    exact h

end

end GoM
end KcpGo
