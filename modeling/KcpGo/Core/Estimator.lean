/-!
# A round-trip estimator over the integers

The smoothed mean and mean deviation of the samples, moved by an eighth and a
quarter of the distance (rounded down, as an arithmetic shift does). A sample
below the mean by more than the deviation moves the deviation by one part in
32 only.

The first sample sets the deviation to half of itself, so `timeout` is then
three times the sample. `Within M` is a region that every sample of at most
`M` keeps and on which the mean and four deviations never exceed `3 * M`.
-/
namespace KcpGo

structure Estimator where
  mean : Int
  dev : Int
  deriving DecidableEq, Repr

namespace Estimator

/-- The distance of a sample from the mean. -/
def dist (e : Estimator) (x : Int) : Int := if x - e.mean < 0 then -(x - e.mean) else x - e.mean

/-- The mean after the sample. -/
def nextMean (e : Estimator) (x : Int) : Int := e.mean + (x - e.mean) / 8

/-- The part of the distance by which the sample moves the deviation. -/
def weight (e : Estimator) (x : Int) : Int := if x < e.nextMean x - e.dev then 32 else 4

def sample (e : Estimator) (x : Int) : Estimator :=
  if e.mean = 0 then ⟨x, x / 2⟩ else ⟨e.nextMean x, e.dev + (e.dist x - e.dev) / e.weight x⟩

variable {e : Estimator} {top x : Int}

theorem weight_above (hd : 0 ≤ e.dev) (hx : e.mean ≤ x) : e.weight x = 4 := by
  unfold weight nextMean
  rw [if_neg (by omega)]

theorem dist_above (hx : e.mean ≤ x) : e.dist x = x - e.mean := by
  unfold dist
  rw [if_neg (by omega)]

theorem dist_below (hx : x < e.mean) : e.dist x = e.mean - x := by
  unfold dist
  rw [if_pos (by omega)]
  omega

/-- What samples in `[0, top]` can lead to. -/
structure Sound (top : Int) (e : Estimator) : Prop where
  mean : 0 ≤ e.mean ∧ e.mean ≤ top
  dev : 0 ≤ e.dev ∧ e.dev ≤ top

theorem Sound.dist (h : e.Sound top) (hx : 0 ≤ x ∧ x ≤ top) : 0 ≤ e.dist x ∧ e.dist x ≤ top := by
  have := h.mean
  unfold Estimator.dist
  split <;> omega

theorem Sound.nextMean (h : e.Sound top) (hx : 0 ≤ x ∧ x ≤ top) : 0 ≤ e.nextMean x ∧ e.nextMean x ≤ top := by
  have := h.mean
  unfold Estimator.nextMean
  omega

theorem Sound.sample (h : e.Sound top) (hx : 0 ≤ x ∧ x ≤ top) : (e.sample x).Sound top := by
  have hdist := h.dist hx
  have hdev := h.dev
  unfold Estimator.sample
  split
  · exact ⟨hx, by dsimp only; omega⟩
  · refine ⟨h.nextMean hx, ?_⟩
    unfold weight
    dsimp only
    split <;> omega

/-- The region of samples of at most `M`. The deviation is bounded by the
mean in two ways, since a small mean leaves room for a large next sample. The
constants absorb the rounding. -/
structure Within (M : Int) (e : Estimator) : Prop where
  mean : 0 ≤ e.mean ∧ e.mean ≤ M
  dev : 0 ≤ e.dev
  double : e.dev ≤ 2 * e.mean + 8
  quarter : 4 * e.dev ≤ M + 4 * e.mean + 40
  top : 8 * e.dev ≤ 5 * M + 40
  sum : e.mean + 4 * e.dev ≤ 3 * M

theorem within_zero {M : Int} (hM : 0 ≤ M) : Within M ⟨0, 0⟩ where
  mean := by dsimp only; omega
  dev := by simp
  double := by simp
  quarter := by dsimp only; omega
  top := by dsimp only; omega
  sum := by dsimp only; omega

theorem Within.first {M : Int} (hx : 0 ≤ x ∧ x ≤ M) : Within M ⟨x, x / 2⟩ where
  mean := hx
  dev := by dsimp only; omega
  double := by dsimp only; omega
  quarter := by dsimp only; omega
  top := by dsimp only; omega
  sum := by dsimp only; omega

/-- Every sample of at most `M` stays in the region. -/
theorem Within.sample {M : Int} (hM : 1000 ≤ M) (h : e.Within M) (hx : 0 ≤ x ∧ x ≤ M) : (e.sample x).Within M := by
  obtain ⟨hmean, hdev, hdouble, hquarter, htop, hsum⟩ := h
  unfold Estimator.sample
  split
  · exact Within.first hx
  · rename_i hne
    by_cases habove : e.mean ≤ x
    · rw [weight_above hdev habove, dist_above habove]
      unfold nextMean
      constructor <;> dsimp only <;> omega
    · rw [dist_below (by omega)]
      unfold weight nextMean
      -- a sample below the mean lowers the mean and four deviations
      split
      · constructor <;> dsimp only <;> omega
      · constructor <;> dsimp only <;> omega

end Estimator
end KcpGo
