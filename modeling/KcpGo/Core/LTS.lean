/-!
# Labelled transition systems

A system is a predicate of initial states and a labelled step relation. A
property is *inductive* when it holds initially and every step keeps it;
it then holds in every reachable state. `restrict` keeps the steps a
predicate admits, so a result about all runs of `M.restrict A` is a result
about the runs of `M` whose steps all satisfy `A`.
-/
namespace KcpGo

structure LTS (S L : Type) where
  init : S → Prop
  step : S → L → S → Prop

namespace LTS

variable {S L : Type}
variable {M : LTS S L}

/-- The executions of `M`, with the labels they pass through. -/
inductive Run (M : LTS S L) : S → List L → S → Prop where
  | nil (s : S) : Run M s [] s
  | cons {s s₁ s' : S} {l : L} {ls : List L} : M.step s l s₁ → Run M s₁ ls s' → Run M s (l :: ls) s'

def Reachable (M : LTS S L) (s : S) : Prop := ∃ s₀ ls, M.init s₀ ∧ M.Run s₀ ls s

/-- `P` holds initially and every step keeps it. -/
structure Inductive (M : LTS S L) (P : S → Prop) : Prop where
  init : ∀ s, M.init s → P s
  step : ∀ s l s', P s → M.step s l s' → P s'

/-- The system with only the steps that `A` admits. -/
def restrict (M : LTS S L) (A : S → L → S → Prop) : LTS S L where
  init := M.init
  step s l s' := M.step s l s' ∧ A s l s'

/-- The system of a partial step function. -/
def ofFn (init : S → Prop) (f : S → L → Option S) : LTS S L where
  init := init
  step s l s' := f s l = some s'

theorem Run.keeps {P : S → Prop} (hstep : ∀ s l s', P s → M.step s l s' → P s')
    {s s' : S} {ls : List L} (hr : M.Run s ls s') : P s → P s' := by
  induction hr with
  | nil => exact id
  | cons h _ ih => exact fun hp => ih (hstep _ _ _ hp h)

theorem Inductive.reachable {P : S → Prop} (h : M.Inductive P) (s : S)
    (hr : M.Reachable s) : P s := by
  obtain ⟨s₀, ls, hi, hrun⟩ := hr
  exact hrun.keeps h.step (h.init _ hi)

theorem Run.append {a b d : S} {l₁ l₂ : List L} (h₁ : M.Run a l₁ b)
    (h₂ : M.Run b l₂ d) : M.Run a (l₁ ++ l₂) d := by
  induction h₁ with
  | nil => exact h₂
  | cons hs _ ih => exact .cons hs (ih h₂)

theorem Reachable.step {s s' : S} {l : L} (hr : M.Reachable s) (h : M.step s l s') :
    M.Reachable s' := by
  obtain ⟨s₀, ls, hi, hrun⟩ := hr
  exact ⟨s₀, ls ++ [l], hi, hrun.append (.cons h (.nil _))⟩

/-- More steps reach more. -/
theorem Reachable.mono {N : LTS S L} (hi : ∀ s, M.init s → N.init s)
    (hs : ∀ s l s', M.step s l s' → N.step s l s') {s : S} (hr : M.Reachable s) : N.Reachable s := by
  obtain ⟨s₀, ls, h0, hrun⟩ := hr
  refine ⟨s₀, ls, hi _ h0, ?_⟩
  clear h0
  induction hrun with
  | nil => exact .nil _
  | cons h _ ih => exact .cons (hs _ _ _ h) ih

/-- A run whose steps are all admitted is a run. -/
theorem Reachable.of_restrict {A : S → L → S → Prop} {s : S} (hr : (M.restrict A).Reachable s) : M.Reachable s :=
  mono (M := M.restrict A) (N := M) (fun _ h => h) (fun _ _ _ h => h.1) hr

/-- A run whose labels are all admitted. -/
theorem Run.restrict {B : L → Prop} {s s' : S} {ls : List L} (h : M.Run s ls s') (hB : ∀ l ∈ ls, B l) :
    (M.restrict fun _ l _ => B l).Run s ls s' := by
  induction h with
  | nil => exact .nil _
  | cons hs _ ih => exact .cons ⟨hs, hB _ List.mem_cons_self⟩ (ih fun l hl => hB l (List.mem_cons_of_mem _ hl))

/-- The state after the steps `ls` of a partial step function, if the guard
`g` admits each of them. -/
def play (f : S → L → Option S) (g : S → L → Bool) : S → List L → Option S
  | s, [] => some s
  | s, l :: ls => if g s l then (f s l).bind fun s => play f g s ls else none

/-- A run that computes is a run of every system with these steps. -/
theorem play_run {f : S → L → Option S} {g : S → L → Bool}
    (hg : ∀ s l s', g s l = true → f s l = some s' → M.step s l s') :
    ∀ {ls : List L} {s s' : S}, play f g s ls = some s' → M.Run s ls s' := by
  intro ls
  induction ls with
  | nil =>
    intro s s' h
    cases h
    exact .nil _
  | cons l ls ih =>
    intro s s' h
    rw [play] at h
    split at h
    · rename_i hge
      rw [Option.bind_eq_some_iff] at h
      obtain ⟨s₁, h1, h2⟩ := h
      exact .cons (hg _ _ _ hge h1) (ih h2)
    · cases h

end LTS
end KcpGo
