import KcpGo.L2Machine.Resend
import KcpGo.L2Machine.Timers
import KcpGo.L3Protocol.SendWindow

/-!
# Loss recovery

The congestion window after a flush that retransmitted quickly and lost
nothing to a timeout (`loss_recovery`).
-/
namespace KcpGo.L2

open KcpGo.L1 KcpGo.Serial

/-! ## The congestion window -/

/-- A full flush sends some segment by the fast or the early rule and none
for a timeout. -/
structure KCP.QuickOnly (k : KCP) (clk : Clock) : Prop where
  quick : (k.passes .full clk).any KCP.Pass.quick = true
  kept : (k.passes .full clk).any KCP.Pass.lost = false

/-- The congestion state that loss recovery should leave, in the integers. -/
structure Recovered (k : KCP) : Prop where
  ssthresh : k.ssthresh.toNat = max ((k.sndNxt - k.sndUna).toNat / 2) 2
  cwnd : (k.cwnd.toNat : Int) = k.ssthresh.toNat + k.fastresend.toInt
  incr : k.incr.toNat = k.cwnd.toNat * k.mss.toNat
  above : k.ssthresh ≤ k.cwnd

/-- Phase 6 after quick retransmissions only. -/
theorem updateCwnd_quick {k : KCP} {cwnd resent : UInt32} {change : Nat} (hn : k.nocwnd = 0) (hc : 0 < change)
    (hpos : 1 ≤ max ((k.sndNxt - k.sndUna) / 2) IKCP_THRESH_MIN + resent) :
    KCP.updateCwnd k cwnd resent change 0 = KCP.halveRate resent change k := by
  unfold KCP.updateCwnd KCP.restartRate KCP.floorRate KCP.halveRate
  rw [if_neg (by simp [hn]), if_pos hc, if_neg (Nat.lt_irrefl 0), if_neg (UInt32.not_lt.mpr hpos)]

/-- The new threshold, at most half of the largest window. -/
theorem halved_toNat (a : UInt32) : (max (a / 2) IKCP_THRESH_MIN).toNat = max (a.toNat / 2) 2 := by
  rw [toNat_max, UInt32.toNat_div]
  rfl

theorem resentOf_toNat {k : KCP} (h : 0 ≤ k.fastresend.toInt) :
    (k.resentOf.toNat : Int) = if k.fastresend = 0 then 0xFFFFFFFF else k.fastresend.toInt := by
  unfold KCP.resentOf
  have hzero : k.fastresend = 0 ↔ k.fastresend.toInt = 0 := by
    rw [← Int32.toInt_inj, Int32.toInt_zero]
  have hle : k.fastresend ≤ 0 ↔ k.fastresend = 0 := by
    rw [hzero, Int32.le_iff_toInt_le, Int32.toInt_zero]
    omega
  by_cases hz : k.fastresend = 0
  · rw [if_pos (hle.mpr hz), if_pos hz]
    rfl
  · rw [if_neg (fun h => hz (hle.mp h)), if_neg hz, toNat_toUInt32 h]

/-- From the state `f` after phase 4, with the segments `buf` phase 5 left. -/
theorem recovered_iff {f k' : KCP} {buf : List Segment} {st cwnd : UInt32} {change : Nat}
    (hk' : SndOk k') (hnc : f.nocwnd = 0)
    (hres : 0 ≤ f.fastresend.toInt ∧ f.fastresend.toInt ≤ 1000) (hmss : f.mss.toNat ≤ 1448) (hchange : 0 < change)
    (heq : k' = KCP.updateCwnd { f with sndBuf := buf, state := st } cwnd f.resentOf change 0) :
    Recovered k' ↔ f.fastresend ≠ 0 := by
  have hinfl : (k'.sndNxt - k'.sndUna).toNat ≤ 65535 := by
    rw [show (k'.sndNxt - k'.sndUna).toNat = _ from Snd.Inv.inflight hk']
    exact hk'.len
  have hsame : k'.sndNxt - k'.sndUna = f.sndNxt - f.sndUna := by
    obtain ⟨a, b, c, hu, -⟩ := KCP.updateCwnd_spec { f with sndBuf := buf, state := st } cwnd f.resentOf change 0
    rw [heq, hu]
  rw [hsame] at hinfl
  have hhalf := halved_toNat (f.sndNxt - f.sndUna)
  have hresent := resentOf_toNat hres.1
  have hsum : (max ((f.sndNxt - f.sndUna) / 2) IKCP_THRESH_MIN + f.resentOf).toNat =
      (max ((f.sndNxt - f.sndUna) / 2) IKCP_THRESH_MIN).toNat + f.resentOf.toNat -
        (if f.fastresend = 0 then 2 ^ 32 else 0) := by
    rw [UInt32.toNat_add]
    by_cases hz : f.fastresend = 0
    · rw [if_pos hz] at hresent ⊢
      omega
    · rw [if_neg hz] at hresent ⊢
      omega
  have hpos : 1 ≤ max ((f.sndNxt - f.sndUna) / 2) IKCP_THRESH_MIN + f.resentOf := by
    rw [UInt32.le_iff_toNat_le, hsum]
    show 1 ≤ _
    by_cases hz : f.fastresend = 0
    · rw [if_pos hz] at hresent ⊢
      omega
    · rw [if_neg hz] at hresent ⊢
      omega
  rw [updateCwnd_quick (k := { f with sndBuf := buf, state := st }) hnc hchange hpos] at heq
  unfold KCP.halveRate at heq
  rw [if_pos hchange] at heq
  subst heq
  constructor
  · intro h hz
    have hcwnd := h.cwnd
    dsimp only at hcwnd
    rw [hsum, if_pos hz, hz] at hcwnd
    rw [if_pos hz] at hresent
    have : (0 : Int32).toInt = 0 := rfl
    omega
  · intro hz
    rw [if_neg hz] at hresent hsum
    refine ⟨hhalf, ?_, ?_, ?_⟩
    · dsimp only
      omega
    · dsimp only
      rw [UInt32.toNat_mul, hsum, Nat.mod_eq_of_lt]
      refine Nat.lt_of_le_of_lt (Nat.mul_le_mul (by omega : _ ≤ 33767) hmss) (by decide)
    · dsimp only
      rw [UInt32.le_iff_toNat_le]
      omega

/-- **Loss recovery sets the window without wrapping exactly when fast
resend is on.** With `fastresend = 0` the infinity marker is added. -/
theorem loss_recovery (conv : UInt32) (k : KCP) (hr : (machine conv).Reachable k) (op : Op) (e k' : KCP)
    (o : Out) (clk : Clock)
    (hentry : entry k op = .ok e) (hargs : flushArgs k op = some (.full, clk)) (hstep : step k op = .ok (k', o))
    (hnc : e.nocwnd = 0) (hres : 0 ≤ e.fastresend.toInt ∧ e.fastresend.toInt ≤ 1000) (hmss : e.mss.toNat ≤ 1448)
    (hquick : e.QuickOnly clk) : Recovered k' ↔ e.fastresend ≠ 0 := by
  have hk' : SndOk k' := ((sndOk_inductive conv).reachable k hr).step hstep
  obtain ⟨e', he', hends⟩ := step_parts hstep
  rw [hentry] at he'
  cases he'
  rw [hargs] at hends
  cases hends with
  | flushes nx hf =>
  obtain ⟨st, heq⟩ := KCP.flush_passes hf
  obtain ⟨p, t, w, m, hfilled, -⟩ := e.filled_spec clk
  have hchange : 0 < (e.passes .full clk).countP KCP.Pass.quick :=
    List.countP_pos_iff.mpr (List.any_eq_true.mp hquick.quick)
  have hlost : (e.passes .full clk).countP KCP.Pass.lost = 0 := by
    have := hquick.kept
    rw [List.any_eq_false] at this
    exact List.countP_eq_zero.mpr this
  rw [hlost] at heq
  have hset : (e.filled clk).1.nocwnd = e.nocwnd ∧ (e.filled clk).1.mss = e.mss ∧
      (e.filled clk).1.fastresend = e.fastresend := by
    rw [hfilled]
    exact ⟨rfl, rfl, rfl⟩
  rw [← hset.1] at hnc
  rw [← hset.2.1] at hmss
  rw [← hset.2.2] at hres ⊢
  generalize (e.filled clk).1 = f at hnc hmss hres heq ⊢
  generalize (e.passes .full clk).countP KCP.Pass.quick = change at hchange heq
  exact recovered_iff hk' hnc hres hmss hchange heq

def quickAck (sn una : UInt32) : Op :=
  .input ({ conv := 7, cmd := IKCP_CMD_ACK, wnd := 32, sn := sn, una := una } : Segment).wire .regular false fun _ => 0

/-- Segments 1 and 2 are in flight after this; an ACK of 2 makes 1 due for a
quick retransmission. -/
def quickRun (resend : Int) : List Op :=
  [.noDelay (-1) (-1) resend (-1), .send [1], .send [2], .send [3], .flush .full fun _ => 0,
    .flush .full fun _ => 0, quickAck 0 1]

instance (k : KCP) (clk : Clock) : Decidable (k.QuickOnly clk) :=
  decidable_of_iff ((k.passes .full clk).any KCP.Pass.quick = true ∧ (k.passes .full clk).any KCP.Pass.lost = false)
    ⟨fun h => ⟨h.1, h.2⟩, fun h => ⟨h.quick, h.kept⟩⟩

theorem loss_recovery_fast : ∃ k e k' o, exec (newKCP 7) (quickRun 1) = .ok k ∧ entry k (quickAck 2 1) = .ok e ∧
    step k (quickAck 2 1) = .ok (k', o) ∧ e.QuickOnly (fun _ => 0) ∧ k'.cwnd = 3 ∧ Recovered k' := by
  obtain ⟨k, e, r, hk, he, ha, hs, h1, h2, h3, h4, h5, h6⟩ : ∃ k e r, exec (newKCP 7) (quickRun 1) = .ok k ∧
      entry k (quickAck 2 1) = .ok e ∧ flushArgs k (quickAck 2 1) = some (.full, fun _ => 0) ∧
        step k (quickAck 2 1) = .ok r ∧
      e.nocwnd = 0 ∧ (0 ≤ e.fastresend.toInt ∧ e.fastresend.toInt ≤ 1000) ∧ e.mss.toNat ≤ 1448 ∧
        e.QuickOnly (fun _ => 0) ∧
      e.fastresend ≠ 0 ∧ r.1.cwnd = 3 :=
    ⟨_, _, _, rfl, rfl, rfl, rfl, by decide +kernel⟩
  exact ⟨k, e, r.1, r.2, hk, he, hs, h4, h6,
    (loss_recovery 7 k (exec_reachable hk) _ e r.1 r.2 _ he ha hs h1 h2 h3 h4).mpr h5⟩

/-- Fast resend off: the window is one below the threshold. -/
theorem early_shrinks : ∃ k e k' o, exec (newKCP 7) (quickRun 0) = .ok k ∧ entry k (quickAck 2 1) = .ok e ∧
    flushArgs k (quickAck 2 1) = some (.full, fun _ => 0) ∧ step k (quickAck 2 1) = .ok (k', o) ∧
      e.nocwnd = 0 ∧ e.fastresend = 0 ∧
    e.mss.toNat ≤ 1448 ∧ e.QuickOnly (fun _ => 0) ∧ k'.ssthresh = 2 ∧ k'.cwnd = 1 ∧ ¬ Recovered k' := by
  obtain ⟨k, e, r, hk, he, ha, hs, h1, h2, h3, h4, h5, h6⟩ : ∃ k e r, exec (newKCP 7) (quickRun 0) = .ok k ∧
      entry k (quickAck 2 1) = .ok e ∧ flushArgs k (quickAck 2 1) = some (.full, fun _ => 0) ∧
        step k (quickAck 2 1) = .ok r ∧
      e.nocwnd = 0 ∧ e.fastresend = 0 ∧ e.mss.toNat ≤ 1448 ∧ e.QuickOnly (fun _ => 0) ∧
        r.1.ssthresh = 2 ∧ r.1.cwnd = 1 :=
    ⟨_, _, _, rfl, rfl, rfl, rfl, by decide +kernel⟩
  refine ⟨k, e, r.1, r.2, hk, he, ha, hs, h1, h2, h3, h4, h5, h6, fun hrec => ?_⟩
  have habove := hrec.above
  rw [h5, h6] at habove
  exact absurd habove (by decide)

end KcpGo.L2
