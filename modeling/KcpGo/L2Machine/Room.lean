import KcpGo.L2Machine.StepSpec

/-!
# The output buffer is large enough

`Roomy`: a packet of `mtu` bytes and every queued segment alone fit into
`kcp.buffer`. `SetMtu` keeps this by its search through the queues, however
the MTU moves while segments are queued (`Body.roomy`, `step_roomy`), and
then `flush` does not panic (`flush_ok`).
-/
namespace KcpGo.L2

open KcpGo.L1 KcpGo.Serial

variable {k e k' : KCP}

/-- The largest MTU whose segments fit into a pool buffer. -/
def poolMtu : Nat := maxPacketSize + IKCP_OVERHEAD

/-- A segment fits into a buffer of `n` bytes with its header. -/
def Fits (n : Nat) (s : Segment) : Prop := IKCP_OVERHEAD + s.len ≤ n

structure Roomy (k : KCP) : Prop where
  mss : k.mss.toNat + IKCP_OVERHEAD = k.mtu.toNat
  mtu : k.mtu.toNat ≤ k.bufLen
  buf : ∀ s ∈ k.snd.buf, Fits k.bufLen s
  queue : ∀ s ∈ k.sndQueue, Fits k.bufLen s

theorem roomy_newKCP (conv : UInt32) : Roomy (newKCP conv) := by
  have hlen : IKCP_MTU_DEF.toNat ≤ (IKCP_MTU_DEF.toNat + IKCP_OVERHEAD) * 3 := by decide
  refine ⟨rfl, hlen, ?_, ?_⟩
  · intro s hs
    cases hs
  · intro s hs
    cases hs

/-! ## Writing -/

namespace Writer

theorem makeSpace_le (mtu : UInt32) (n : Nat) (w : Writer) :
    (w.makeSpace mtu n).cur.length + n ≤ max mtu.toNat n := by
  unfold Writer.makeSpace
  split
  · simp
  · omega

theorem encode_ok {bufLen : Nat} {mtu : UInt32} {n : Nat} (w : Writer) (s : Segment) (hm : mtu.toNat ≤ bufLen)
    (hn : n ≤ bufLen) (h : IKCP_OVERHEAD ≤ n) : ∃ w', (w.makeSpace mtu n).encode bufLen s = .ok w' ∧
      w'.cur.length + n ≤ bufLen + IKCP_OVERHEAD := by
  have hle := makeSpace_le mtu n w
  have hhead : s.header.length = IKCP_OVERHEAD := by simp [IKCP_OVERHEAD]
  refine ⟨_, if_neg (by omega), ?_⟩
  rw [List.length_append, hhead]
  omega

end Writer

namespace KCP

theorem flushAcks_ok (hm : k.mtu.toNat ≤ k.bufLen) (h24 : IKCP_OVERHEAD ≤ k.bufLen) :
    ∀ (l : List AckItem) (seg : Segment) (w : Writer), ∃ r, flushAcks k l seg w = .ok r := by
  intro l
  induction l with
  | nil => exact fun seg w => ⟨_, rfl⟩
  | cons a rest ih =>
    intro seg w
    rw [flushAcks]
    split
    · obtain ⟨w', hw, -⟩ := Writer.encode_ok w { seg with sn := a.sn, ts := a.ts } hm h24 (Nat.le_refl _)
      rw [hw]
      exact ih _ w'
    · exact ih _ _

theorem flushProbe_ok (hm : k.mtu.toNat ≤ k.bufLen) (h24 : IKCP_OVERHEAD ≤ k.bufLen) (flag : UInt32)
    (cmd : UInt8) (seg : Segment) (w : Writer) : ∃ r, flushProbe k flag cmd seg w = .ok r := by
  unfold flushProbe
  split
  · obtain ⟨w', hw, -⟩ := Writer.encode_ok w { seg with cmd := cmd } hm h24 (Nat.le_refl _)
    rw [hw]
    exact ⟨_, rfl⟩
  · exact ⟨_, rfl⟩

theorem transmit_ok (hm : k.mtu.toNat ≤ k.bufLen) {s : Segment} (hs : Fits k.bufLen s) (seg : Segment)
    (r : Reason) (x : Xmit) : ∃ y, transmit k seg r s x = .ok y := by
  have hdata : (stamp k seg r x s).len = s.len := by
    cases r <;> rfl
  unfold Fits at hs
  rw [← hdata] at hs
  unfold transmit
  obtain ⟨w', hw, hle⟩ := Writer.encode_ok x.w (stamp k seg r x s) hm hs (Nat.le_add_right _ _)
  rw [hw, Go.ok_bind]
  have hcopy : w'.copyData k.bufLen (stamp k seg r x s).bytes =
      .ok { w' with cur := w'.cur ++ (stamp k seg r x s).bytes } := by
    refine if_neg ?_
    unfold Segment.len at hle
    omega
  rw [hcopy]
  exact ⟨_, rfl⟩

theorem resendLoop_ok (hm : k.mtu.toNat ≤ k.bufLen) (seg : Segment) (resent : UInt32) (n : Nat) :
    ∀ (l : List Segment) (x : Xmit), (∀ s ∈ l, Fits k.bufLen s) → ∃ y, resendLoop k seg resent n l x = .ok y := by
  intro l
  induction l with
  | nil => exact fun x _ => ⟨_, rfl⟩
  | cons s q ih =>
    intro x hl
    obtain ⟨⟨s', x'⟩, h1⟩ : ∃ y, resendOne k seg resent n s x = .ok y := by
      unfold resendOne
      split
      · exact ⟨_, rfl⟩
      · split
        · exact ⟨_, rfl⟩
        · rename_i r _
          obtain ⟨y, hy⟩ := transmit_ok hm (hl s List.mem_cons_self) seg r x
          rw [hy]
          exact ⟨_, rfl⟩
    obtain ⟨⟨q', x''⟩, h2⟩ := ih x' fun s hs => hl s (List.mem_cons_of_mem _ hs)
    refine ⟨(s' :: q', x''), ?_⟩
    rw [resendLoop, h1, Go.ok_bind]
    simp only [h2, Go.ok_bind]

theorem flushProbes_ok (hm : k.mtu.toNat ≤ k.bufLen) (h24 : IKCP_OVERHEAD ≤ k.bufLen) (seg : Segment)
    (w : Writer) : ∃ r, flushProbes k seg w = .ok r := by
  unfold flushProbes
  obtain ⟨⟨seg₁, w₁⟩, h1⟩ := flushProbe_ok hm h24 IKCP_ASK_SEND IKCP_CMD_WASK seg w
  rw [h1, Go.ok_bind]
  exact flushProbe_ok hm h24 IKCP_ASK_TELL IKCP_CMD_WINS seg₁ w₁

theorem flushData_ok (hm : k.mtu.toNat ≤ k.bufLen) (hb : ∀ s ∈ k.sndBuf, Fits k.bufLen s) (ft : FlushType)
    (clk : Clock) (seg : Segment) (n : Nat) (w : Writer) : ∃ r, flushData k ft clk seg n w = .ok r := by
  obtain ⟨⟨buf, x⟩, hx⟩ : ∃ y, resendBuf k ft seg n ⟨clk 0, clk.tail, w, k.state, 0, 0, k.interval⟩ = .ok y := by
    cases ft with
    | full => exact resendLoop_ok hm seg k.resentOf n k.sndBuf _ hb
    | ackOnly => exact ⟨_, rfl⟩
  unfold flushData
  rw [hx]
  exact ⟨_, rfl⟩

/-- **`flush` stays inside its buffer.** -/
theorem flush_ok (h : Roomy k) (ft : FlushType) (clk : Clock) : ∃ r, flush k ft clk = .ok r := by
  have hm := h.mtu
  have h24 : IKCP_OVERHEAD ≤ k.bufLen := by
    have := h.mss
    omega
  unfold flush
  obtain ⟨⟨seg₁, w₁⟩, h1⟩ := flushAcks_ok hm h24 k.acklist k.template ⟨[], []⟩
  rw [h1, Go.ok_bind, probeTimer_acklist]
  obtain ⟨p, t, wt, hprobe⟩ := probeTimer_spec k clk
  generalize probeTimer k clk = pt at hprobe ⊢
  obtain ⟨k₁, clk₁⟩ := pt
  dsimp only at hprobe ⊢
  subst hprobe
  obtain ⟨⟨seg₂, w₂⟩, h2⟩ := flushProbes_ok
    (k := { k with acklist := [], probe := p, tsProbe := t, probeWait := wt }) hm h24 seg₁ w₁
  rw [h2, Go.ok_bind]
  obtain ⟨m, -, -, hadm, -⟩ := fillWindow_spec k.sendWindow k.sndQueue
    { k with acklist := [], probe := 0, tsProbe := t, probeWait := wt }
  refine flushData_ok (k := (fillWindow k.sendWindow { k with acklist := [], probe := 0, tsProbe := t, probeWait := wt }
    k.sndQueue).1) ?_ ?_ ft clk₁ seg₂ _ w₂
  · rw [hadm]
    exact hm
  · rw [hadm]
    intro s hs
    rcases List.mem_append.mp hs with hs | hs
    · exact h.buf s.core (List.mem_map_of_mem hs)
    · obtain ⟨q, hq, sn, rfl⟩ := numberFrom_mem hs
      exact h.queue q (List.mem_of_mem_take hq)

end KCP

/-! ## Every operation -/

theorem fragments_fit {stream : Int32} {mss : Nat} : ∀ {n : Nat} {buffer : Bytes} {segs : List Segment},
    KCP.fragments stream mss n buffer = .ok segs → ∀ s ∈ segs, s.len ≤ mss := by
  intro n
  induction n with
  | zero =>
    intro buffer segs h
    cases h
    simp
  | succ n ih =>
    intro buffer segs h
    rw [KCP.fragments] at h
    split at h
    · cases h
    obtain ⟨rest, hr, h⟩ := Go.bind_ok h
    cases h
    intro s hs
    rcases List.mem_cons.mp hs with rfl | hs
    · simp only [Segment.len, Segment.bytes, Option.getD_some, List.length_take]
      omega
    · exact ih hr s hs

theorem extendTail_fit {mss n : Nat} {q q' : List Segment} {buffer left : Bytes} (hn : IKCP_OVERHEAD + mss ≤ n)
    (h : KCP.extendTail mss q buffer = .ok (q', left)) (hq : ∀ s ∈ q, Fits n s) : ∀ s ∈ q', Fits n s := by
  unfold KCP.extendTail at h
  split at h
  · cases h
    exact hq
  · split at h
    · dsimp only at h
      split at h
      · cases h
      · cases h
        intro s hs
        rcases List.mem_append.mp hs with hs | hs
        · exact hq s (List.mem_of_mem_dropLast hs)
        · simp only [List.mem_singleton] at hs
          subst hs
          simp only [Fits, Segment.len, Segment.bytes, Option.getD_some, List.length_append, List.length_take] at *
          omega
    · cases h
      exact hq

/-- Every segment kept for sending fits into `n` bytes. -/
structure AllFit (n : Nat) (k : KCP) : Prop where
  buf : ∀ s ∈ k.snd.buf, Fits n s
  queue : ∀ s ∈ k.sndQueue, Fits n s

theorem Roomy.allFit (h : Roomy k) : AllFit k.bufLen k := ⟨h.buf, h.queue⟩

theorem Roomy.mss_le (h : Roomy k) : IKCP_OVERHEAD + k.mss.toNat ≤ k.bufLen := by
  have h1 := h.mss
  have h2 := h.mtu
  omega

theorem send_fit {n : Nat} {buffer : Bytes} {r : Int} (h : k.send buffer = .ok (e, r))
    (hn : IKCP_OVERHEAD + k.mss.toNat ≤ n) (hq : ∀ s ∈ k.sndQueue, Fits n s) : ∀ s ∈ e.sndQueue, Fits n s := by
  have fresh : ∀ (k₁ : KCP) {e : KCP} {b : Bytes}, k₁.mss = k.mss → (∀ s ∈ k₁.sndQueue, Fits n s) →
      k₁.sendFresh b = .ok (e, r) → ∀ s ∈ e.sndQueue, Fits n s := by
    intro k₁ e b hm hq h
    rcases KCP.sendFresh_spec h with ⟨rfl, -⟩ | ⟨count, segs, -, -, hs, rfl, -⟩
    · exact hq
    · intro s hs'
      rcases List.mem_append.mp hs' with hs' | hs'
      · exact hq s hs'
      · have := fragments_fit hs s hs'
        rw [hm] at this
        unfold Fits
        omega
  unfold KCP.send at h
  split at h
  · cases h
    exact hq
  split at h
  · exact fresh k rfl hq h
  · obtain ⟨⟨q, left⟩, hx, h⟩ := Go.bind_ok h
    have hq := extendTail_fit hn hx hq
    dsimp only at h
    split at h
    · cases h
      exact hq
    · exact fresh { k with sndQueue := q } rfl hq h

theorem AllFit.of_snd {n : Nat} (h : AllFit n k) (hs : e.snd = k.snd) : AllFit n e := by
  have hq : e.sndQueue = k.sndQueue := congrArg Snd.queue hs
  exact ⟨hs ▸ h.buf, hq ▸ h.queue⟩

theorem markAcked_fit {n : Nat} (sn : UInt32) {l : List Segment} (hl : ∀ s ∈ l, Fits n s) :
    ∀ s ∈ KCP.markAcked sn l, Fits n s := by
  induction l with
  | nil => exact hl
  | cons x q ih =>
    rw [KCP.markAcked]
    have hx := hl x List.mem_cons_self
    split
    · intro s hm
      rcases List.mem_cons.mp hm with rfl | hm
      · have hz : ({ x with acked := 1, data := none } : Segment).len = 0 := rfl
        unfold Fits at hx ⊢
        omega
      · exact hl s (List.mem_cons_of_mem _ hm)
    · split
      · exact hl
      · intro s hm
        rcases List.mem_cons.mp hm with rfl | hm
        · exact hx
        · exact ih (fun r hr => hl r (List.mem_cons_of_mem _ hr)) s hm

/-- A segment of a packet frees data, it never adds any. -/
theorem AllFit.seg {n : Nat} {pkt : PacketType} {h : Header} {payload : Bytes}
    (hs : KCP.SegSpec pkt h payload k k') (hf : AllFit n k) : AllFit n k' := by
  have hhead : ∀ s ∈ (k.snd.head (KCP.wndOf pkt h) h.una).buf, Fits n s :=
    fun s hm => hf.buf s (List.mem_of_mem_drop hm)
  have hq : k'.snd.queue = k.snd.queue := by
    rw [hs.snd]
    split
    · unfold Snd.ack
      split <;> rfl
    · rfl
  have hq' : k'.sndQueue = k.sndQueue := hq
  refine ⟨?_, hq' ▸ hf.queue⟩
  rw [hs.snd]
  split
  · unfold Snd.ack
    split
    · exact hhead
    · exact markAcked_fit _ hhead
  · exact hhead

theorem AllFit.body {n : Nat} {op : Op} (h : Body k op e) (hn : IKCP_OVERHEAD + k.mss.toNat ≤ n)
    (hf : AllFit n k) : AllFit n e := by
  cases h with
  | send h =>
    have hq := send_fit h hn hf.queue
    obtain ⟨q, rfl, -⟩ := KCP.send_spec h
    exact ⟨hf.buf, hq⟩
  | recv h => exact hf.of_snd (KCP.recv_rest h).1
  | input h =>
    rcases KCP.inputBody_spec h with ⟨-, rfl, -⟩ | ⟨-, st, hl, hsame, -⟩
    · exact hf
    · have hst : AllFit n st.k := KCP.inputLoop_keeps (P := AllFit n) (fun _ _ _ _ _ hs hp => hp.seg hs) hl hf
      exact hst.of_snd hsame.snd
  | wndSize a b => exact hf.of_snd (KCP.wndSize_rest k a b).1
  | noDelay a b c d => exact hf.of_snd (KCP.noDelay_rest k a b c d).2.1
  | setMtu h => exact hf.of_snd (KCP.setMtu_rest h).2.1
  | setStream on => exact hf.of_snd rfl
  | idle _ hs => exact hf.of_snd hs.snd

theorem FlushSpec.allFit {n : Nat} {ft : FlushType} {clk : Clock} {m : Nat} {out : List Bytes}
    (hs : FlushSpec k ft clk m k' out) (hf : AllFit n k) : AllFit n k' := by
  have hq : k'.sndQueue = k.sndQueue.drop m := congrArg Snd.queue hs.snd
  constructor
  · rw [hs.snd]
    intro s hm
    rcases List.mem_append.mp hm with hm | hm
    · exact hf.buf s hm
    · obtain ⟨x, hx, rfl⟩ := List.mem_map.mp hm
      obtain ⟨q, hq, sn, rfl⟩ := numberFrom_mem hx
      exact hf.queue q (List.mem_of_mem_take hq)
  · rw [hq]
    exact fun s hm => hf.queue s (List.mem_of_mem_drop hm)

/-- The search of `SetMtu` finds room for the start value and every segment. -/
theorem segRoom_le (segs : List Segment) : ∀ size : Int, size ≤ KCP.segRoom segs size ∧
    ∀ s ∈ segs, ((IKCP_OVERHEAD + s.len : Nat) : Int) ≤ KCP.segRoom segs size := by
  induction segs with
  | nil => exact fun size => ⟨Int.le_refl _, by simp⟩
  | cons x q ih =>
    intro size
    unfold KCP.segRoom at ih ⊢
    rw [List.foldl_cons]
    split
    · rename_i hlt
      obtain ⟨h1, h2⟩ := ih ((IKCP_OVERHEAD + x.len : Nat) : Int)
      refine ⟨by omega, fun s hs => ?_⟩
      rcases List.mem_cons.mp hs with rfl | hs
      · exact h1
      · exact h2 s hs
    · rename_i hge
      obtain ⟨h1, h2⟩ := ih size
      refine ⟨h1, fun s hs => ?_⟩
      rcases List.mem_cons.mp hs with rfl | hs
      · omega
      · exact h2 s hs

theorem setMtu_roomy {mtu r : Int} (h : k.setMtu mtu = .ok (e, r)) (hm : mtu ≤ poolMtu)
    (hr : Roomy k) : Roomy e := by
  unfold KCP.setMtu at h
  split at h
  · cases h
    exact hr
  rename_i hlow
  dsimp only at h
  obtain ⟨b1, b2⟩ := segRoom_le k.sndBuf (((mtu + IKCP_OVERHEAD) * 3).bmod (2 ^ 64))
  generalize KCP.segRoom k.sndBuf (((mtu + IKCP_OVERHEAD) * 3).bmod (2 ^ 64)) = size at h b1 b2
  obtain ⟨q1, q2⟩ := segRoom_le k.sndQueue size
  generalize KCP.segRoom k.sndQueue size = size' at h q1 q2
  split at h
  · cases h
  cases h
  have h24 : ((IKCP_OVERHEAD : Nat) : Int) = 24 := rfl
  have hmax : ((poolMtu : Nat) : Int) = 1496 := rfl
  have hbmod : ((mtu + IKCP_OVERHEAD) * 3).bmod (2 ^ 64) = (mtu + 24) * 3 := by
    rw [h24]
    exact Int.bmod_eq_of_le (by omega) (by omega)
  have hmtu : (UInt32.ofInt mtu).toNat = mtu.toNat := by
    rw [Serial.toNat_ofInt]
    omega
  refine ⟨?_, ?_, ?_, ?_⟩
  · show (UInt32.ofInt mtu - UInt32.ofNat IKCP_OVERHEAD).toNat + IKCP_OVERHEAD = (UInt32.ofInt mtu).toNat
    have ho : (UInt32.ofNat IKCP_OVERHEAD).toNat = 24 := rfl
    have ho' : IKCP_OVERHEAD = 24 := rfl
    rw [UInt32.toNat_sub, hmtu, ho, ho']
    omega
  · show (UInt32.ofInt mtu).toNat ≤ size'.toNat
    rw [hmtu]
    rw [hbmod] at b1
    omega
  · intro s hs
    obtain ⟨s₀, hs₀, rfl⟩ := List.mem_map.mp hs
    have := b2 s₀ hs₀
    show IKCP_OVERHEAD + s₀.len ≤ size'.toNat
    omega
  · intro s hs
    have := q2 s hs
    show IKCP_OVERHEAD + s.len ≤ size'.toNat
    omega

theorem Roomy.of_cfg (h : Roomy k) (hm : e.mtu = k.mtu ∧ e.mss = k.mss ∧ e.bufLen = k.bufLen)
    (hb : ∀ s ∈ e.snd.buf, Fits k.bufLen s) (hq : ∀ s ∈ e.sndQueue, Fits k.bufLen s) : Roomy e := by
  obtain ⟨h1, h2, h3⟩ := hm
  refine ⟨?_, ?_, ?_, ?_⟩
  · rw [h1, h2]
    exact h.mss
  · rw [h1, h3]
    exact h.mtu
  · rw [h3]
    exact hb
  · rw [h3]
    exact hq

theorem Roomy.of_same (h : Roomy k) (hs : e.snd = k.snd)
    (hm : e.mtu = k.mtu ∧ e.mss = k.mss ∧ e.bufLen = k.bufLen) : Roomy e := by
  have hq : e.sndQueue = k.sndQueue := congrArg Snd.queue hs
  exact h.of_cfg hm (hs ▸ h.buf) (hq ▸ h.queue)

theorem cfg_room (h : e.cfg = k.cfg) : e.mtu = k.mtu ∧ e.mss = k.mss ∧ e.bufLen = k.bufLen :=
  ⟨congrArg Cfg.mtu h, congrArg Cfg.mss h, congrArg Cfg.bufLen h⟩

/-- Only `SetMtu` changes the sizes. -/
theorem Body.sizes {op : Op} (h : Body k op e) (hop : ∀ m, op ≠ .setMtu m) :
    e.mtu = k.mtu ∧ e.mss = k.mss ∧ e.bufLen = k.bufLen := by
  by_cases hc : op.configures = true
  · cases h with
    | wndSize a b =>
      unfold KCP.wndSize
      dsimp only
      split <;> split <;> exact ⟨rfl, rfl, rfl⟩
    | noDelay a b c d =>
      unfold KCP.noDelay
      dsimp only
      split <;> split <;> split <;> split <;> exact ⟨rfl, rfl, rfl⟩
    | @setMtu mtu _ _ h => exact absurd rfl (hop mtu)
    | setStream on => exact ⟨rfl, rfl, rfl⟩
    | idle _ hs => exact cfg_room hs.cfg
    | send hs => cases hc
    | recv hs => cases hc
    | input hs => cases hc
  · exact cfg_room (h.cfg (Bool.not_eq_true _ ▸ hc))

theorem Body.roomy {op : Op} (h : Body k op e) (hop : ∀ m, op = .setMtu m → m ≤ poolMtu)
    (hr : Roomy k) : Roomy e := by
  by_cases hset : ∃ m, op = .setMtu m
  · obtain ⟨m, rfl⟩ := hset
    cases h with
    | setMtu h => exact setMtu_roomy h (hop m rfl) hr
    | idle hidle _ => cases hidle
  · have hfit := hr.allFit.body h hr.mss_le
    exact hr.of_cfg (h.sizes fun m hm => hset ⟨m, hm⟩) hfit.buf hfit.queue

theorem FlushSpec.roomy {ft : FlushType} {clk : Clock} {m : Nat} {out : List Bytes}
    (hf : FlushSpec k ft clk m k' out) (hr : Roomy k) : Roomy k' := by
  have hfit := hf.allFit hr.allFit
  exact hr.of_cfg (cfg_room hf.cfg) hfit.buf hfit.queue

/-- **The buffer stays large enough.** -/
theorem step_roomy {op : Op} {o : Out} (h : step k op = .ok (k', o))
    (hop : ∀ m, op = .setMtu m → m ≤ poolMtu) (hr : Roomy k) : Roomy k' := by
  obtain ⟨e, hb, hcase⟩ := step_split h
  have he := hb.roomy hop hr
  rcases hcase with ⟨rfl, -, -⟩ | ⟨-, ft, clk, nx, hf⟩
  · exact he
  · obtain ⟨m, hspec⟩ := KCP.flush_spec hf
    exact hspec.roomy he

end KcpGo.L2
