import KcpGo.L2Machine.Timers
import KcpGo.L3Protocol.SendWindow

/-!
# The retransmission timeout over whole runs

`RtoOk`, in every reachable state: the estimator's values are non-negative,
the settings it reads are in their ranges, and the timeout is between 30 and
60000 ms.

`update_ack` adds the mean and four deviations in 32 bits. A first sample
gives three times itself, so it wraps from 1431655766 ms on; up to
`rttLimit`, one less, no history of samples makes it wrap (`rto_estimated`).
-/
namespace KcpGo.L2

open KcpGo.L1 KcpGo.Serial

variable {k e : KCP}

/-! ## Ranges -/

structure RtoOk (k : KCP) : Prop where
  estimator : k.estimator.Sound KCP.rttTop
  interval : 10 ≤ k.interval.toNat ∧ k.interval.toNat ≤ 5000
  minrto : 30 ≤ k.rxMinrto.toNat ∧ k.rxMinrto.toNat ≤ 100
  rto : 30 ≤ k.rxRto.toNat ∧ k.rxRto.toNat ≤ 60000

theorem rtoOk_newKCP (conv : UInt32) : RtoOk (newKCP conv) where
  estimator := by
    constructor <;> simp [newKCP, KCP.estimator, KCP.rttTop]
  interval := by simp [newKCP, IKCP_INTERVAL]
  minrto := by simp [newKCP, IKCP_RTO_MIN]
  rto := by simp [newKCP, IKCP_RTO_DEF]

theorem RtoOk.of_rx (h : RtoOk k) (he : e.rx = k.rx) : RtoOk e := by
  simp only [KCP.rx, RttFields.mk.injEq] at he
  obtain ⟨h1, h2, h3, h4, h5⟩ := he
  exact ⟨by rw [KCP.estimator, h1, h2]; exact h.estimator, by rw [h5]; exact h.interval, by rw [h4]; exact h.minrto,
    by rw [h3]; exact h.rto⟩

/-- `NoDelay` keeps the settings in their ranges. -/
theorem RtoOk.noDelay (h : RtoOk k) (a b c d : Int) : RtoOk (k.noDelay a b c d) := by
  have hset : ∀ k : KCP, RtoOk k → RtoOk (if a < 0 then k else
      { k with nodelay := UInt32.ofInt a, rxMinrto := if a ≠ 0 then IKCP_RTO_NDL else IKCP_RTO_MIN }) := by
    intro k h
    split
    · exact h
    · refine ⟨h.estimator, h.interval, ?_, h.rto⟩
      dsimp only
      split <;> decide
  have hint : ∀ k : KCP, RtoOk k → RtoOk (if b < 0 then k else
      { k with interval := UInt32.ofInt (if 5000 < b then 5000 else if b < 10 then 10 else b) }) := by
    intro k h
    split
    · exact h
    · refine ⟨h.estimator, ?_, h.minrto, h.rto⟩
      have hclamp : 10 ≤ (if 5000 < b then 5000 else if b < 10 then 10 else b) ∧
          (if 5000 < b then 5000 else if b < 10 then 10 else b) ≤ 5000 := by
        split
        · omega
        · split <;> omega
      dsimp only
      rw [toNat_ofInt]
      omega
  have hrest : ∀ k : KCP, RtoOk k → RtoOk (if c < 0 then k else { k with fastresend := Int32.ofInt c }) := by
    intro k h
    split
    · exact h
    · exact ⟨h.estimator, h.interval, h.minrto, h.rto⟩
  have hlast := hrest _ (hint _ (hset k h))
  unfold KCP.noDelay
  dsimp only
  split
  · exact hlast
  · exact ⟨hlast.estimator, hlast.interval, hlast.minrto, hlast.rto⟩

/-- `update_ack` clamps the timeout. -/
theorem boundRto_range (hmin : k.rxMinrto.toNat ≤ 60000) :
    k.rxMinrto ≤ k.boundRto.rxRto ∧ k.boundRto.rxRto ≤ IKCP_RTO_MAX := by
  have hle : k.rxMinrto ≤ IKCP_RTO_MAX := by
    rw [UInt32.le_iff_toNat_le]
    exact hmin
  rw [UInt32.le_iff_toNat_le] at hle
  unfold KCP.boundRto
  dsimp only
  rw [UInt32.le_iff_toNat_le, UInt32.le_iff_toNat_le, toNat_min, toNat_max]
  omega

theorem smoothRtt_settings (k : KCP) (rtt : Int32) :
    (k.smoothRtt rtt).interval = k.interval ∧ (k.smoothRtt rtt).rxMinrto = k.rxMinrto := by
  unfold KCP.smoothRtt
  split <;> exact ⟨rfl, rfl⟩

theorem RtoOk.updateAck (h : RtoOk k) {rtt : Int32} (hr : 0 ≤ rtt.toInt) : RtoOk (k.updateAck rtt) := by
  have hest : (k.updateAck rtt).estimator = k.estimator.sample rtt.toInt := KCP.smoothRtt_exact h.estimator hr
  have hset := smoothRtt_settings k rtt
  have hrange := boundRto_range (k := k.smoothRtt rtt) (by rw [hset.2]; have := h.minrto; omega)
  rw [UInt32.le_iff_toNat_le, UInt32.le_iff_toNat_le, hset.2] at hrange
  have hmin := h.minrto
  refine ⟨?_, ?_, ?_, ⟨by unfold KCP.updateAck; omega, hrange.2⟩⟩
  · rw [hest]
    have := rtt.toInt_lt
    exact h.estimator.sample ⟨hr, by unfold KCP.rttTop; omega⟩
  · have hkeep : (k.updateAck rtt).interval = k.interval := hset.1
    rw [hkeep]
    exact h.interval
  · have hkeep : (k.updateAck rtt).rxMinrto = k.rxMinrto := hset.2
    rw [hkeep]
    exact hmin

/-- A sample is never negative. -/
theorem sampleOf_nonneg {op : Op} {rtt : Int32} (h : sampleOf k op = some rtt) : 0 ≤ rtt.toInt := by
  cases op with
  | input data pkt nd clk =>
    simp only [sampleOf, KCP.rttSample] at h
    split at h
    · split at h
      · rename_i hpos
        cases h
        simpa [Int32.le_iff_toInt_le] using hpos.2
      · cases h
    · cases h
  | _ => cases h

theorem RtoOk.rxStep {op : Op} (h : RtoOk k) (hs : RxStep k op e) : RtoOk e := by
  cases hs with
  | sampled hop he => exact (h.updateAck (sampleOf_nonneg hop)).of_rx he
  | configured a b c d he => exact (h.noDelay a b c d).of_rx he
  | kept _ he => exact h.of_rx he

theorem rtoOk_inductive (conv : UInt32) : (machine conv).Inductive RtoOk where
  init k hk := hk ▸ rtoOk_newKCP conv
  step k op k' h hs := by
    obtain ⟨o, ho⟩ := hs
    exact h.rxStep (step_rxStep ho)

/-! ## Exactness -/

/-- The largest sample whose triple fits 32 bits. -/
def rttLimit : Int := 1431655765

theorem estimator_of_rx {a b : KCP} (h : a.rx = b.rx) : a.estimator = b.estimator := by
  simp only [KCP.rx, RttFields.mk.injEq] at h
  rw [KCP.estimator, KCP.estimator, h.1, h.2.1]

theorem within_step {k' : KCP} {op : Op} (hk : RtoOk k) (hw : k.estimator.Within rttLimit) (hs : RxStep k op k')
    (hle : ∀ rtt, sampleOf k op = some rtt → rtt.toInt ≤ rttLimit) : k'.estimator.Within rttLimit := by
  cases hs with
  | sampled hop he =>
    have hr := sampleOf_nonneg hop
    have hest : (k.updateAck _).estimator = k.estimator.sample _ := KCP.smoothRtt_exact hk.estimator hr
    rw [estimator_of_rx he, hest]
    exact hw.sample (by decide) ⟨hr, hle _ hop⟩
  | configured a b c d he =>
    have hset : (k.noDelay a b c d).estimator = k.estimator := by
      unfold KCP.noDelay
      dsimp only
      split <;> split <;> split <;> split <;> rfl
    rw [estimator_of_rx he, hset]
    exact hw
  | kept _ he =>
    rw [estimator_of_rx he]
    exact hw

/-- The samples of a step are at most `M`. -/
def SamplesUpTo (M : Int) (k : KCP) (op : Op) (_ : KCP) : Prop := ∀ rtt, sampleOf k op = some rtt → rtt.toInt ≤ M

theorem within_inductive (conv : UInt32) :
    ((machine conv).restrict (SamplesUpTo rttLimit)).Inductive fun k => RtoOk k ∧ k.estimator.Within rttLimit where
  init k hk := by
    subst hk
    exact ⟨rtoOk_newKCP conv, Estimator.within_zero (by decide)⟩
  step k op k' h hs := by
    obtain ⟨⟨o, ho⟩, hle⟩ := hs
    exact ⟨h.1.rxStep (step_rxStep ho), within_step h.1 h.2 (step_rxStep ho) hle⟩

/-- The estimator's values and the timeout, computed without wrapping. -/
structure Estimated (k : KCP) : Prop where
  srtt : 0 ≤ k.rxSrtt
  rttvar : 0 ≤ k.rxRttvar
  low : k.rxMinrto ≤ k.rxRto
  high : k.rxRto ≤ IKCP_RTO_MAX
  exact : (k.rxRto.toNat : Int) =
    min (max (k.rxMinrto.toNat : Int) (k.rxSrtt.toInt + max (k.interval.toNat : Int) (4 * k.rxRttvar.toInt)))
      IKCP_RTO_MAX.toNat

instance (k : KCP) : Decidable (Estimated k) :=
  decidable_of_iff (0 ≤ k.rxSrtt ∧ 0 ≤ k.rxRttvar ∧ k.rxMinrto ≤ k.rxRto ∧ k.rxRto ≤ IKCP_RTO_MAX ∧
    (k.rxRto.toNat : Int) =
      min (max (k.rxMinrto.toNat : Int) (k.rxSrtt.toInt + max (k.interval.toNat : Int) (4 * k.rxRttvar.toInt)))
        IKCP_RTO_MAX.toNat)
    ⟨fun ⟨a, b, c, d, e⟩ => ⟨a, b, c, d, e⟩, fun ⟨a, b, c, d, e⟩ => ⟨a, b, c, d, e⟩⟩

/-- The sum of `update_ack` when it fits 32 bits. -/
theorem boundRto_exact (hs : 0 ≤ k.rxSrtt.toInt) (hv : 0 ≤ k.rxRttvar.toInt)
    (hfit : k.rxSrtt.toInt + max (k.interval.toNat : Int) (4 * k.rxRttvar.toInt) < 2 ^ 32) :
    (k.boundRto.rxRto.toNat : Int) =
      min (max (k.rxMinrto.toNat : Int) (k.rxSrtt.toInt + max (k.interval.toNat : Int) (4 * k.rxRttvar.toInt)))
        IKCP_RTO_MAX.toNat := by
  have h1 := toNat_toUInt32 hs
  have h2 := toNat_toUInt32 hv
  have hshift : (k.rxRttvar.toUInt32 <<< (2 : UInt32)).toNat = 4 * k.rxRttvar.toUInt32.toNat := by
    rw [UInt32.toNat_shiftLeft, Nat.shiftLeft_eq]
    have : ((2 : UInt32).toNat % 32) = 2 := rfl
    rw [this]
    omega
  unfold KCP.boundRto
  dsimp only
  rw [toNat_min, toNat_max, UInt32.toNat_add, toNat_max, hshift]
  omega

/-- In the region of `rttLimit` the sum fits. -/
theorem Estimated.updateAck (hk : RtoOk k) (hw : k.estimator.Within rttLimit) {rtt : Int32} (hr : 0 ≤ rtt.toInt)
    (hle : rtt.toInt ≤ rttLimit) : Estimated (k.updateAck rtt) := by
  have hest : (k.smoothRtt rtt).estimator = k.estimator.sample rtt.toInt := KCP.smoothRtt_exact hk.estimator hr
  have hregion := hw.sample (by decide) ⟨hr, hle⟩
  rw [← hest] at hregion
  have hset := smoothRtt_settings k rtt
  have hint : (k.smoothRtt rtt).interval.toNat ≤ 5000 := by rw [hset.1]; exact hk.interval.2
  have hmin : (k.smoothRtt rtt).rxMinrto.toNat ≤ 60000 := by rw [hset.2]; have := hk.minrto; omega
  obtain ⟨hmean, hdev, -, -, -, hsum⟩ := hregion
  unfold rttLimit at hmean hsum
  simp only [KCP.estimator] at hmean hdev hsum
  have hrange := boundRto_range hmin
  exact ⟨by rw [Int32.le_iff_toInt_le]; exact hmean.1, by rw [Int32.le_iff_toInt_le]; exact hdev, hrange.1, hrange.2,
    boundRto_exact hmean.1 hdev (by omega)⟩

theorem Estimated.of_rx (h : Estimated k) (he : e.rx = k.rx) : Estimated e := by
  simp only [KCP.rx, RttFields.mk.injEq] at he
  obtain ⟨h1, h2, h3, h4, h5⟩ := he
  exact ⟨by rw [h1]; exact h.srtt, by rw [h2]; exact h.rttvar, by rw [h3, h4]; exact h.low, by rw [h3]; exact h.high,
    by rw [h1, h2, h3, h4, h5]; exact h.exact⟩

/-- A sample leaves values in their ranges, whatever it is. -/
theorem sampled_ranges {k' : KCP} {op : Op} {o : Out} {rtt : Int32} (hk : RtoOk k) (h : step k op = .ok (k', o))
    (hs : sampleOf k op = some rtt) : 0 ≤ k'.rxSrtt ∧ 0 ≤ k'.rxRttvar ∧ k'.rxMinrto ≤ k'.rxRto ∧
      k'.rxRto ≤ IKCP_RTO_MAX := by
  have hk' := hk.rxStep (step_rxStep h)
  refine ⟨?_, ?_, ?_⟩
  · rw [Int32.le_iff_toInt_le]
    exact hk'.estimator.mean.1
  · rw [Int32.le_iff_toInt_le]
    exact hk'.estimator.dev.1
  · have hset := (smoothRtt_settings k rtt).2
    have he := (step_rxStep h).sample hs
    simp only [KCP.rx, RttFields.mk.injEq] at he
    rw [he.2.2.1, he.2.2.2.1]
    exact boundRto_range (k := k.smoothRtt rtt) (by rw [hset]; have := hk.minrto; omega)

/-- **The timeout estimator.** After every sample the values are in their
ranges; and in a run whose samples are at most `rttLimit`, the timeout is the
one computed in the integers. -/
theorem rto_estimated (conv : UInt32) :
    (∀ k, (machine conv).Reachable k → ∀ op k' o rtt, step k op = .ok (k', o) → sampleOf k op = some rtt →
      0 ≤ k'.rxSrtt ∧ 0 ≤ k'.rxRttvar ∧ k'.rxMinrto ≤ k'.rxRto ∧ k'.rxRto ≤ IKCP_RTO_MAX) ∧
    ∀ k, ((machine conv).restrict (SamplesUpTo rttLimit)).Reachable k → ∀ op k' o rtt, step k op = .ok (k', o) →
      sampleOf k op = some rtt → rtt.toInt ≤ rttLimit → Estimated k' := by
  constructor
  · intro k hr op k' o rtt h hs
    exact sampled_ranges ((rtoOk_inductive conv).reachable k hr) h hs
  · intro k hr op k' o rtt h hs hle
    obtain ⟨hk, hw⟩ := (within_inductive conv).reachable k hr
    exact (Estimated.updateAck hk hw (sampleOf_nonneg hs) hle).of_rx ((step_rxStep h).sample hs)

/-- An ACK stamped `ts`, received at time 0. -/
def ackAt (ts : UInt32) : Op :=
  .input ({ conv := 7, cmd := IKCP_CMD_ACK, wnd := 32, ts := ts } : Segment).wire .regular false fun _ => 0

/-- The largest sample within the limit: the timeout is the upper bound. -/
theorem rto_estimated_largest : ∃ k' o, step (newKCP 7) (ackAt (-1431655765)) = .ok (k', o) ∧
    sampleOf (newKCP 7) (ackAt (-1431655765)) = some 1431655765 ∧ Estimated k' ∧ k'.rxRto = IKCP_RTO_MAX := by
  obtain ⟨r, hr, ht⟩ : ∃ r, step (newKCP 7) (ackAt (-1431655765)) = .ok r ∧ r.1.rxRto = IKCP_RTO_MAX :=
    ⟨_, rfl, by decide +kernel⟩
  have hs : sampleOf (newKCP 7) (ackAt (-1431655765)) = some 1431655765 := by decide +kernel
  refine ⟨r.1, r.2, hr, hs, ?_, ht⟩
  exact (rto_estimated 7).2 (newKCP 7) ⟨_, [], rfl, .nil _⟩ _ r.1 r.2 _ hr hs (by decide)

/-- One more, and the sum wraps: the timeout is the lower bound. -/
theorem rto_wraps : ∃ k' o, step (newKCP 7) (ackAt (-1431655766)) = .ok (k', o) ∧
    sampleOf (newKCP 7) (ackAt (-1431655766)) = some 1431655766 ∧ k'.rxRto = 100 ∧
    k'.rxSrtt.toInt + 4 * k'.rxRttvar.toInt = 2 ^ 32 + 2 ∧ ¬ Estimated k' := by
  obtain ⟨r, hr, ht⟩ : ∃ r, step (newKCP 7) (ackAt (-1431655766)) = .ok r ∧ (r.1.rxRto = 100 ∧
      r.1.rxSrtt.toInt + 4 * r.1.rxRttvar.toInt = 2 ^ 32 + 2 ∧ ¬ Estimated r.1) :=
    ⟨_, rfl, by decide +kernel⟩
  exact ⟨r.1, r.2, hr, by decide +kernel, ht⟩

end KcpGo.L2
