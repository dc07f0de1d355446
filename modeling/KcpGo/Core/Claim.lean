import Mathlib.Logic.Basic

/-!
# A claim that is held by at most one

A flag that is set by compare-and-swap stands for a claim. Whoever set it
holds the claim, may pass it on, and gives it up by clearing the flag.
`Claimed flag holds` says that the flag is set exactly while someone holds
the claim, and that no two do. One rule for each thing that can happen to a
claim: `claim`, `pass`, `release`, and `congr` when nothing happens.
-/
namespace KcpGo

structure Claimed {H : Type} (flag : Bool) (holds : H → Prop) : Prop where
  unique : ∀ a b, holds a → holds b → a = b
  held : flag = true ↔ ∃ a, holds a

namespace Claimed

variable {H : Type} {flag : Bool} {holds holds' : H → Prop} {a b : H}

theorem none : Claimed false fun _ : H => False := ⟨fun _ _ h => h.elim, by simp⟩

theorem flag_eq (h : Claimed flag holds) (ha : holds a) : flag = true := h.held.mpr ⟨a, ha⟩

theorem congr (h : Claimed flag holds) (hh : ∀ x, holds' x ↔ holds x) : Claimed flag holds' := by
  have : holds' = holds := funext fun x => propext (hh x)
  rw [this]
  exact h

/-- The compare-and-swap that finds the flag clear. -/
theorem claim (h : Claimed false holds) (hh : ∀ x, holds' x ↔ x = a ∨ holds x) : Claimed true holds' := by
  have hno : ∀ x, ¬ holds x := fun x hx => by cases h.held.mpr ⟨x, hx⟩
  refine ⟨fun x z hx hz => ?_, fun _ => ⟨a, (hh a).mpr (.inl rfl)⟩, fun _ => rfl⟩
  have hx' := ((hh x).mp hx).resolve_right (hno x)
  have hz' := ((hh z).mp hz).resolve_right (hno z)
  rw [hx', hz']

/-- `a` passes the claim to `b`. -/
theorem pass (h : Claimed flag holds) (ha : holds a) (hh : ∀ x, holds' x ↔ x = b ∨ (holds x ∧ x ≠ a)) :
    Claimed flag holds' := by
  have honly : ∀ x, holds' x → x = b := by
    intro x hx
    rcases (hh x).mp hx with hx | ⟨hx, hne⟩
    · exact hx
    · exact absurd (h.unique x a hx ha) hne
  refine ⟨fun x z hx hz => (honly x hx).trans (honly z hz).symm, ?_⟩
  rw [h.flag_eq ha]
  exact ⟨fun _ => ⟨b, (hh b).mpr (.inl rfl)⟩, fun _ => rfl⟩

/-- The holder clears the flag. -/
theorem release (h : Claimed flag holds) (ha : holds a) (hh : ∀ x, holds' x ↔ holds x ∧ x ≠ a) :
    Claimed false holds' := by
  have hno : ∀ x, ¬ holds' x := by
    intro x hx
    obtain ⟨hx, hne⟩ := (hh x).mp hx
    exact hne (h.unique x a hx ha)
  refine ⟨fun x _ hx => absurd hx (hno x), fun hf => ?_, fun ⟨x, hx⟩ => absurd hx (hno x)⟩
  cases hf

end Claimed
end KcpGo
