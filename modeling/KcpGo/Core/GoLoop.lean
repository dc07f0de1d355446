import KcpGo.Core.GoRun

/-!
# Loops with `break`, and sequences of calls

`for { … }` with a state: a round goes on with a new state or breaks with a
result. `loop body n` runs at most `n` rounds; `none` says that it has not
broken by then. More rounds change nothing once it has, so a loop
terminates exactly when some number of rounds gives a result.

`calls step` makes calls one after the other and keeps what each returned.
`calls_refines`: if every call returns, and returns what `spec` does on a
related state, then so does every sequence of calls.
-/
namespace KcpGo.Go

variable {σ α : Type}

def loop (body : σ → Go (σ ⊕ α)) : Nat → σ → Go (Option α)
  | 0, _ => .ok none
  | n + 1, s => do
    match ← body s with
    | .inl s => loop body n s
    | .inr a => .ok (some a)

section
variable {body : σ → Go (σ ⊕ α)} {s s' : σ} {a : α} {n : Nat}

theorem loop_break (h : body s = .ok (.inr a)) : loop body (n + 1) s = .ok (some a) := by
  rw [loop, h]
  rfl

theorem loop_next (h : body s = .ok (.inl s')) : loop body (n + 1) s = loop body n s' := by
  rw [loop, h]
  rfl

end

/-! ## Sequences of calls -/

section
variable {ι τ ω : Type}

def calls (step : σ → ι → Go (σ × ω)) : σ → List ι → Go (σ × List ω)
  | s, [] => .ok (s, [])
  | s, c :: cs => do
    let (s, o) ← step s c
    let (s, os) ← calls step s cs
    .ok (s, o :: os)

/-- The same for calls that always return. -/
def specCalls (spec : τ → ι → τ × ω) : τ → List ι → τ × List ω
  | t, [] => (t, [])
  | t, c :: cs => ((specCalls spec (spec t c).1 cs).1, (spec t c).2 :: (specCalls spec (spec t c).1 cs).2)

theorem calls_refines {step : σ → ι → Go (σ × ω)} {spec : τ → ι → τ × ω} {R : σ → τ → Prop}
    (h : ∀ s t c, R s t → ∃ s', step s c = .ok (s', (spec t c).2) ∧ R s' (spec t c).1) (cs : List ι) {s : σ} {t : τ}
    (hs : R s t) : ∃ s', calls step s cs = .ok (s', (specCalls spec t cs).2) ∧ R s' (specCalls spec t cs).1 := by
  induction cs generalizing s t with
  | nil => exact ⟨s, rfl, hs⟩
  | cons c cs ih =>
    obtain ⟨s₁, hcall, hs₁⟩ := h s t c hs
    obtain ⟨s₂, hcalls, hs₂⟩ := ih hs₁
    refine ⟨s₂, ?_, hs₂⟩
    rw [calls, hcall, Go.ok_bind]
    dsimp only
    rw [hcalls]
    rfl

end

end KcpGo.Go
