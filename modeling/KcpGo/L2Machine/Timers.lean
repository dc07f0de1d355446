import KcpGo.Core.Estimator
import KcpGo.L2Machine.FlushOrder
import KcpGo.L2Machine.StepSpec

/-!
# The round-trip estimator and the timers of `snd_buf`

An operation is a body (`entry`) and at most one flush (`flushArgs`), with
the values both compute (`step_parts`). Here is what they do to the estimator
(`rx`) and to the segments of `snd_buf` with their timers:

* `smoothRtt_exact`: the 32-bit arithmetic of `update_ack` is
  `Estimator.sample` over the integers, for every non-negative sample.
* `step_rxStep`: an operation leaves the estimator alone, configures it
  (`NoDelay`), or gives it the one sample of an `Input`.
-/
namespace KcpGo.L2

open KcpGo.L1 KcpGo.Serial

/-! ## An operation as a body and a flush -/

/-- The state in which an operation calls `flush`, or returns. -/
def entry (k : KCP) : Op → Go KCP
  | .send buffer => do
    let (k, _) ← k.send buffer
    .ok k
  | .recv room => do
    let (k, _, _) ← k.recv room
    .ok k
  | .input data pkt _ clk => do
    let (k, _, _, _) ← k.inputBody data pkt clk
    .ok k
  | .noDelay a b c d => .ok (k.noDelay a b c d)
  | .wndSize a b => .ok (k.wndSize a b)
  | .setMtu mtu => do
    let (k, _) ← k.setMtu mtu
    .ok k
  | .setStream on => .ok { k with stream := if on then 1 else 0 }
  | .resetRTO clk => .ok (k.resetRTO clk)
  | .update clk => .ok (k.updateTimer (clk 0)).1
  | .peekSize | .flush _ _ | .waitSnd | .check _ => .ok k

/-- The arguments of the flush an operation makes, if it makes one. -/
def flushArgs (k : KCP) : Op → Option (FlushType × Clock)
  | .flush ft clk => some (ft, clk)
  | .update clk => if (k.updateTimer (clk 0)).2 then some (.full, clk.tail) else none
  | .input data pkt nd clk =>
    match k.inputBody data pkt clk with
    | .ok (e, none, fl, clk') => (e.flushWanted fl nd).map fun ft => (ft, clk')
    | _ => none
  | _ => none

/-- How an operation ends from the state `e` its body left. -/
inductive Ends (e : KCP) (k' : KCP) (pkts : List Bytes) : Option (FlushType × Clock) → Prop where
  | returns : k' = e → pkts = [] → Ends e k' pkts none
  | flushes {ft : FlushType} {clk : Clock} (nx : UInt32) : e.flush ft clk = .ok (k', pkts, nx) →
    Ends e k' pkts (some (ft, clk))

theorem step_parts {k k' : KCP} {op : Op} {o : Out} (h : step k op = .ok (k', o)) :
    ∃ e, entry k op = .ok e ∧ Ends e k' o.pkts (flushArgs k op) := by
  cases op with
  | send buffer =>
    obtain ⟨⟨e, r⟩, hs, h⟩ := Go.bind_ok h
    cases h
    exact ⟨_, by simp [entry, hs], .returns rfl rfl⟩
  | recv room =>
    obtain ⟨⟨e, r, d⟩, hs, h⟩ := Go.bind_ok h
    cases h
    exact ⟨_, by simp [entry, hs], .returns rfl rfl⟩
  | flush ft clk =>
    obtain ⟨⟨e, pkts, nx⟩, hs, h⟩ := Go.bind_ok h
    cases h
    exact ⟨k, rfl, .flushes nx hs⟩
  | input data pkt nd clk =>
    obtain ⟨⟨e, r, pkts⟩, hs, h⟩ := Go.bind_ok h
    cases h
    obtain ⟨k₁, ret, fl, clk₁, hb, hcase⟩ := KCP.input_spec hs
    refine ⟨k₁, by simp [entry, hb], ?_⟩
    simp only [flushArgs, hb]
    rcases hcase with ⟨c, rfl, -, rfl, rfl⟩ | ⟨rfl, -, hw, rfl, rfl⟩ | ⟨rfl, -, ft, nx, hw, hf⟩
    · exact .returns rfl rfl
    · simp only [hw, Option.map_none]
      exact .returns rfl rfl
    · simp only [hw, Option.map_some]
      exact .flushes nx hf
  | setMtu mtu =>
    obtain ⟨⟨e, r⟩, hs, h⟩ := Go.bind_ok h
    cases h
    exact ⟨_, by simp [entry, hs], .returns rfl rfl⟩
  | update clk =>
    obtain ⟨⟨e, pkts⟩, hs, h⟩ := Go.bind_ok h
    cases h
    refine ⟨_, rfl, ?_⟩
    unfold KCP.update at hs
    split at hs
    · rename_i hf
      obtain ⟨⟨e, o, nx⟩, hfl, hs⟩ := Go.bind_ok hs
      cases hs
      simp only [flushArgs, if_pos hf]
      exact .flushes nx hfl
    · rename_i hf
      cases hs
      simp only [flushArgs, if_neg hf]
      exact .returns rfl rfl
  | peekSize | waitSnd | check | noDelay | wndSize | setStream | resetRTO =>
    cases h
    exact ⟨_, rfl, .returns rfl rfl⟩

theorem entry_body {k e : KCP} {op : Op} (h : entry k op = .ok e) : Body k op e := by
  cases op with
  | send buffer =>
    obtain ⟨⟨e, r⟩, hs, h⟩ := Go.bind_ok h
    cases h
    exact .send hs
  | recv room =>
    obtain ⟨⟨e, r, d⟩, hs, h⟩ := Go.bind_ok h
    cases h
    exact .recv hs
  | input data pkt nd clk =>
    obtain ⟨⟨e, ret, fl, clk'⟩, hs, h⟩ := Go.bind_ok h
    cases h
    exact .input hs
  | noDelay a b c d =>
    cases h
    exact .noDelay a b c d
  | wndSize a b =>
    cases h
    exact .wndSize a b
  | setMtu mtu =>
    obtain ⟨⟨e, r⟩, hs, h⟩ := Go.bind_ok h
    cases h
    exact .setMtu hs
  | setStream on =>
    cases h
    exact .setStream on
  | resetRTO clk =>
    cases h
    exact .idle rfl (resetRTO_same k clk)
  | update clk =>
    cases h
    exact .idle rfl (updateTimer_same k (clk 0))
  | peekSize | flush | waitSnd | check =>
    cases h
    exact .idle rfl (Same.refl _)

/-! ## Signed arithmetic that does not wrap -/

theorem toInt_add_exact {a b : Int32} (hl : -2 ^ 31 ≤ a.toInt + b.toInt) (hu : a.toInt + b.toInt < 2 ^ 31) :
    (a + b).toInt = a.toInt + b.toInt := by
  rw [Int32.toInt_add, Int.bmod_eq_of_le (by omega) (by omega)]

theorem toInt_sub_exact {a b : Int32} (hl : -2 ^ 31 ≤ a.toInt - b.toInt) (hu : a.toInt - b.toInt < 2 ^ 31) :
    (a - b).toInt = a.toInt - b.toInt := by
  rw [Int32.toInt_sub, Int.bmod_eq_of_le (by omega) (by omega)]

theorem toInt_neg_exact {a : Int32} (hl : -2 ^ 31 < a.toInt) : (-a).toInt = -a.toInt := by
  have := a.toInt_lt
  rw [Int32.toInt_neg, Int.bmod_eq_of_le (by omega) (by omega)]

/-- An arithmetic shift divides and rounds down. -/
theorem toInt_shiftRight {a i : Int32} {n : Nat} (h : (a >>> i).toBitVec = a.toBitVec.sshiftRight n) :
    (a >>> i).toInt = a.toInt / 2 ^ n := by
  show (a >>> i).toBitVec.toInt = _
  rw [h, BitVec.toInt_sshiftRight, Int.shiftRight_eq_div_pow]
  simp

theorem toNat_toUInt32 {a : Int32} (h : 0 ≤ a.toInt) : (a.toUInt32.toNat : Int) = a.toInt := by
  have hlt := a.toUInt32.toNat_lt
  have hint : a.toInt = a.toUInt32.toInt32.toInt := rfl
  rw [hint, toInt_toInt32] at h ⊢
  split at h
  · rw [if_pos (by assumption)]
  · omega

/-! ## The estimator -/

/-- The estimator's fields and the settings it reads. -/
structure RttFields where
  srtt : Int32
  rttvar : Int32
  rto : UInt32
  minrto : UInt32
  interval : UInt32

namespace KCP

def rx (k : KCP) : RttFields := ⟨k.rxSrtt, k.rxRttvar, k.rxRto, k.rxMinrto, k.interval⟩

/-- The estimator's state as integers. -/
def estimator (k : KCP) : Estimator := ⟨k.rxSrtt.toInt, k.rxRttvar.toInt⟩

/-- The largest sample. -/
def rttTop : Int := 2 ^ 31 - 1

section
variable {s v r : Int32} (hs : 0 ≤ s.toInt) (hv : 0 ≤ v.toInt) (hr : 0 ≤ r.toInt)
include hs hr

theorem delta_exact : (r - s).toInt = r.toInt - s.toInt := by
  have := s.toInt_lt
  have := r.toInt_lt
  exact toInt_sub_exact (by omega) (by omega)

theorem nextMean_exact (d : Int) : (s + ((r - s) >>> (3 : Int32))).toInt = Estimator.nextMean ⟨s.toInt, d⟩ r.toInt := by
  have hshift : ((r - s) >>> (3 : Int32)).toInt = (r.toInt - s.toInt) / 8 := by
    rw [toInt_shiftRight (n := 3) rfl, delta_exact hs hr]
    rfl
  have := s.toInt_lt
  have := r.toInt_lt
  rw [toInt_add_exact (by omega) (by omega), hshift]
  rfl

theorem dist_exact (d : Int) : (if r - s < 0 then -(r - s) else r - s).toInt = Estimator.dist ⟨s.toInt, d⟩ r.toInt := by
  have hdelta := delta_exact hs hr
  have := s.toInt_lt
  unfold Estimator.dist
  simp only [Int32.lt_iff_toInt_lt, Int32.toInt_zero, hdelta]
  split
  · rw [toInt_neg_exact (by omega), hdelta]
  · exact hdelta

omit hs hr in
/-- Moving the deviation towards the distance. -/
theorem dev_exact {d i : Int32} {n : Nat} (hv : 0 ≤ v.toInt) (hd : 0 ≤ d.toInt)
    (hi : ((d - v) >>> i).toBitVec = (d - v).toBitVec.sshiftRight n) :
    (v + ((d - v) >>> i)).toInt = v.toInt + (d.toInt - v.toInt) / 2 ^ n := by
  have := v.toInt_lt
  have := d.toInt_lt
  have hgap : ((d - v) >>> i).toInt = (d.toInt - v.toInt) / 2 ^ n := by
    rw [toInt_shiftRight hi, toInt_sub_exact (by omega) (by omega)]
  have hpow : (0 : Int) < 2 ^ n := Int.pow_pos (by decide)
  have hlow : -v.toInt ≤ (d.toInt - v.toInt) / 2 ^ n := by
    rw [Int.le_ediv_iff_mul_le hpow]
    have := Int.mul_le_mul_of_nonneg_left hpow hv
    rw [Int.neg_mul]
    omega
  have hhigh : (d.toInt - v.toInt) / 2 ^ n ≤ max (d.toInt - v.toInt) 0 :=
    Int.le_trans (Int.ediv_le_ediv hpow (Int.le_max_left _ 0)) (Int.ediv_le_self _ (Int.le_max_right _ 0))
  rw [toInt_add_exact (by omega) (by omega), hgap]

end

/-- **The estimator does not wrap**: on non-negative samples it is the one
over the integers. -/
theorem smoothRtt_exact {k : KCP} {rtt : Int32} (hk : k.estimator.Sound rttTop) (hr : 0 ≤ rtt.toInt) :
    (k.smoothRtt rtt).estimator = k.estimator.sample rtt.toInt := by
  have hmean : 0 ≤ k.rxSrtt.toInt := hk.mean.1
  have hdev : 0 ≤ k.rxRttvar.toInt := hk.dev.1
  have hzero : k.rxSrtt = 0 ↔ k.estimator.mean = 0 := by
    rw [← Int32.toInt_inj, Int32.toInt_zero]
    rfl
  unfold smoothRtt Estimator.sample
  by_cases hfirst : k.rxSrtt = 0
  · rw [if_pos hfirst, if_pos (hzero.mp hfirst)]
    exact congrArg₂ Estimator.mk rfl (toInt_shiftRight (n := 1) rfl)
  rw [if_neg hfirst, if_neg (fun h => hfirst (hzero.mpr h))]
  have hnext := nextMean_exact hmean hr k.rxRttvar.toInt
  have hdist := dist_exact hmean hr k.rxRttvar.toInt
  have hin : 0 ≤ rtt.toInt ∧ rtt.toInt ≤ rttTop := ⟨hr, by have := rtt.toInt_lt; unfold rttTop; omega⟩
  have hmean' : 0 ≤ k.estimator.nextMean rtt.toInt := (hk.nextMean hin).1
  have hdist' : 0 ≤ k.estimator.dist rtt.toInt := (hk.dist hin).1
  refine congrArg₂ Estimator.mk hnext ?_
  dsimp only
  generalize (if rtt - k.rxSrtt < 0 then -(rtt - k.rxSrtt) else rtt - k.rxSrtt) = delta at hdist ⊢
  generalize k.rxSrtt + ((rtt - k.rxSrtt) >>> (3 : Int32)) = srtt at hnext ⊢
  replace hdist : delta.toInt = k.estimator.dist rtt.toInt := hdist
  replace hnext : srtt.toInt = k.estimator.nextMean rtt.toInt := hnext
  have hlow : rtt < srtt - k.rxRttvar ↔ rtt.toInt < k.estimator.nextMean rtt.toInt - k.estimator.dev := by
    have := srtt.toInt_lt
    have := k.rxRttvar.toInt_lt
    rw [Int32.lt_iff_toInt_lt, toInt_sub_exact (by omega) (by omega), hnext]
    rfl
  unfold Estimator.weight
  by_cases hc : rtt < srtt - k.rxRttvar
  · rw [if_pos hc, if_pos (hlow.mp hc), dev_exact (n := 5) hdev (by omega) rfl, hdist]
    rfl
  · rw [if_neg hc, if_neg (fun h => hc (hlow.mpr h)), dev_exact (n := 2) hdev (by omega) rfl, hdist]
    rfl

/-! ## What changes the estimator -/

theorem inputAck_rx (k : KCP) (sn ts : UInt32) : ((k.parseAck sn).parseFastack sn ts).1.rx = k.rx := by
  have hack : (k.parseAck sn).rx = k.rx := by
    unfold parseAck
    split <;> rfl
  unfold parseFastack
  split <;> exact hack

theorem PushSpec.rx {k k' : KCP} {h : Header} {payload : Bytes} (hs : PushSpec k h payload k') : k'.rx = k.rx := by
  cases hs with
  | beyond => rfl
  | old => rfl
  | repeated =>
    obtain ⟨b, q, s, e⟩ := moveReady_frame (k.ackPush h.sn h.ts).rcvBuf.segments.length (k.ackPush h.sn h.ts)
    rw [moveAll, e]
    rfl
  | stored =>
    obtain ⟨b, q, s, e⟩ := moveReady_frame (k.rcvBuf.push (pushed h payload)).segments.length
      { k.ackPush h.sn h.ts with rcvBuf := k.rcvBuf.push (pushed h payload) }
    rw [moveAll, e]
    rfl

theorem inputSeg_rx {pkt : PacketType} {h : Header} {payload : Bytes} {st st' : InLoop}
    (he : inputSeg pkt h payload st = .ok st') : st'.k.rx = st.k.rx := by
  have hhead : (st.k.inputHead pkt h).1.rx = st.k.rx := by cases pkt <;> rfl
  unfold inputSeg at he
  dsimp only at he
  split at he
  · cases he
    exact (inputAck_rx _ _ _).trans hhead
  split at he
  · obtain ⟨e, hp, he⟩ := Go.bind_ok he
    cases he
    exact (inputPush_spec hp).rx.trans hhead
  split at he
  · cases he
    exact hhead
  · cases he
    exact hhead

/-- A flush reads the estimator and does not change it. -/
theorem flush_rx {k k' : KCP} {ft : FlushType} {clk : Clock} {out : List Bytes} {nx : UInt32}
    (h : k.flush ft clk = .ok (k', out, nx)) : k'.rx = k.rx := by
  obtain ⟨seg, w, -, -, -, h⟩ := flush_phases h
  obtain ⟨p, t, w, m, hfilled, -⟩ := k.filled_spec clk
  obtain ⟨⟨buf, x⟩, -, h⟩ := Go.bind_ok h
  obtain ⟨a, b, c, hu, -⟩ := updateCwnd_spec { (k.filled clk).1 with sndBuf := buf, state := x.state }
    (k.filled clk).1.sendWindow (k.filled clk).1.resentOf x.change x.lost
  cases h
  rw [hu, hfilled]
  rfl

theorem updateAck_rx {a b : KCP} (h : a.rx = b.rx) (rtt : Int32) : (a.updateAck rtt).rx = (b.updateAck rtt).rx := by
  simp only [rx, RttFields.mk.injEq] at h
  obtain ⟨h1, h2, h3, h4, h5⟩ := h
  unfold updateAck boundRto smoothRtt
  rw [h1]
  split <;> simp only [rx, h2, h4, h5]

/-- The sample `Input` gives to `update_ack`, if it gives one: the time since
the timestamp of the packet's last ACK.
mirrors src/kcp.go:703-710 -/
def rttSample (k : KCP) (data : Bytes) (pkt : PacketType) (clk : Clock) : Option Int32 :=
  match inputLoop pkt data.length data ⟨k, 0, false, false⟩ with
  | .ok (st, none) =>
    if (st.updateRTT = true ∧ pkt = .regular) ∧ 0 ≤ itimediff (clk 0) st.latest then
      some (itimediff (clk 0) st.latest)
    else none
  | _ => none

/-- `Input` on fewer bytes than a header. -/
theorem rttSample_short {k : KCP} {data : Bytes} {pkt : PacketType} {clk : Clock} (h : data.length < IKCP_OVERHEAD) :
    k.rttSample data pkt clk = none := by
  have hl : inputLoop pkt data.length data ⟨k, 0, false, false⟩ = .ok (⟨k, 0, false, false⟩, none) := by
    cases hn : data.length with
    | zero => rfl
    | succ n => rw [inputLoop, if_pos h]
  simp [rttSample, hl]

end KCP

/-- The sample an operation gives to the estimator. -/
def sampleOf (k : KCP) : Op → Option Int32
  | .input data pkt _ clk => k.rttSample data pkt clk
  | _ => none

/-- What an operation can do to the estimator and its settings. -/
inductive RxStep (k : KCP) : Op → KCP → Prop where
  | sampled {op : Op} {e : KCP} {rtt : Int32} (hop : sampleOf k op = some rtt) (h : e.rx = (k.updateAck rtt).rx) :
    RxStep k op e
  | configured {e : KCP} (a b c d : Int) (h : e.rx = (k.noDelay a b c d).rx) : RxStep k (.noDelay a b c d) e
  | kept {op : Op} {e : KCP} (hop : sampleOf k op = none) (h : e.rx = k.rx) : RxStep k op e

theorem RxStep.of_rx {k e e' : KCP} {op : Op} (h : RxStep k op e) (he : e'.rx = e.rx) : RxStep k op e' := by
  cases h with
  | sampled hop h => exact .sampled hop (he.trans h)
  | configured a b c d h => exact .configured a b c d (he.trans h)
  | kept hop h => exact .kept hop (he.trans h)

theorem RxStep.sample {k e : KCP} {op : Op} {rtt : Int32} (h : RxStep k op e) (hs : sampleOf k op = some rtt) :
    e.rx = (k.updateAck rtt).rx := by
  cases h with
  | sampled hop h =>
    rw [hs] at hop
    cases hop
    exact h
  | configured => cases hs
  | kept hop =>
    rw [hs] at hop
    cases hop

theorem inputBody_rxStep {k e : KCP} {data : Bytes} {pkt : PacketType} {nd : Bool} {clk clk' : Clock} {ret : Option Int}
    {fl : Bool} (h : k.inputBody data pkt clk = .ok (e, ret, fl, clk')) : RxStep k (.input data pkt nd clk) e := by
  unfold KCP.inputBody at h
  split at h
  · rename_i hlen
    cases h
    exact .kept (KCP.rttSample_short hlen) rfl
  obtain ⟨⟨st, r⟩, hl, h⟩ := Go.bind_ok h
  have hrx : st.k.rx = k.rx :=
    KCP.inputLoop_invariant (P := fun st => st.k.rx = k.rx)
      (fun _ _ _ _ _ hs hp => (KCP.inputSeg_rx hs).trans hp) hl rfl
  cases r with
  | some r =>
    cases h
    exact .kept (by simp [sampleOf, KCP.rttSample, hl]) hrx
  | none =>
    obtain ⟨k₂, hg, h⟩ := Go.bind_ok h
    cases h
    have hsample : sampleOf k (.input data pkt nd clk) =
        if (st.updateRTT = true ∧ pkt = .regular) ∧ 0 ≤ itimediff (clk 0) st.latest then
          some (itimediff (clk 0) st.latest)
        else none := by
      simp [sampleOf, KCP.rttSample, hl]
    have hgrow : e.rx = (KCP.sampleRtt pkt st clk).1.rx := by
      obtain ⟨c, i, he⟩ := KCP.growCwnd_spec hg
      rw [he]
      rfl
    refine RxStep.of_rx ?_ hgrow
    clear hg hgrow
    unfold KCP.sampleRtt
    by_cases hu : st.updateRTT = true ∧ pkt = .regular
    · rw [if_pos hu]
      by_cases hpos : 0 ≤ itimediff (clk 0) st.latest
      · rw [if_pos ⟨hu, hpos⟩] at hsample
        refine .sampled hsample ?_
        dsimp only
        rw [if_pos hpos]
        exact KCP.updateAck_rx hrx _
      · rw [if_neg (fun h => hpos h.2)] at hsample
        refine .kept hsample ?_
        dsimp only
        rw [if_neg hpos]
        exact hrx
    · rw [if_neg hu]
      rw [if_neg (fun h => hu h.1)] at hsample
      exact .kept hsample hrx

theorem entry_rxStep {k e : KCP} {op : Op} (h : entry k op = .ok e) : RxStep k op e := by
  cases op with
  | send buffer =>
    obtain ⟨⟨e, r⟩, hs, h⟩ := Go.bind_ok h
    cases h
    obtain ⟨q, rfl, -⟩ := KCP.send_spec hs
    exact .kept rfl rfl
  | recv room =>
    obtain ⟨⟨e, r, d⟩, hs, h⟩ := Go.bind_ok h
    cases h
    refine .kept rfl ?_
    rcases KCP.recv_spec hs with ⟨-, rfl, -, -⟩ | ⟨-, q, p, -, rfl, -⟩
    · rfl
    · obtain ⟨b, q', s, he⟩ := KCP.moveReady_frame k.rcvBuf.segments.length { k with rcvQueue := q }
      rw [KCP.moveAll, he]
      rfl
  | input data pkt nd clk =>
    obtain ⟨⟨e, ret, fl, clk'⟩, hs, h⟩ := Go.bind_ok h
    cases h
    exact inputBody_rxStep hs
  | noDelay a b c d =>
    cases h
    exact .configured a b c d rfl
  | wndSize a b =>
    cases h
    refine .kept rfl ?_
    unfold KCP.wndSize
    dsimp only
    split <;> split <;> rfl
  | setMtu mtu =>
    obtain ⟨⟨e, r⟩, hs, h⟩ := Go.bind_ok h
    cases h
    refine .kept rfl ?_
    unfold KCP.setMtu at hs
    split at hs
    · cases hs
      rfl
    · dsimp only at hs
      split at hs <;> cases hs
      rfl
  | update clk =>
    cases h
    refine .kept rfl ?_
    unfold KCP.updateTimer KCP.expire KCP.resync KCP.startTimer
    split <;> split <;> split <;> rfl
  | setStream | resetRTO | peekSize | flush | waitSnd | check =>
    cases h
    exact .kept rfl rfl

theorem step_rxStep {k k' : KCP} {op : Op} {o : Out} (h : step k op = .ok (k', o)) : RxStep k op k' := by
  obtain ⟨e, he, hends⟩ := step_parts h
  refine (entry_rxStep he).of_rx ?_
  generalize flushArgs k op = args at hends
  cases hends with
  | returns hk => rw [hk]
  | flushes nx hf => exact KCP.flush_rx hf

end KcpGo.L2
