import KcpGo.L3Protocol.RxRefine
import KcpGo.L3Protocol.System

/-!
# An endpoint refines its two halves of the links

A control block is the sender of one link and the receiver of the other.
`Tied t₂ x₂ k t x`: `k` is `t` and `x`, and both links, with the peer's halves
`t₂` and `x₂`, keep their invariant.

* `Heard.seg`: a genuine segment is `hear`, then perhaps `accept`.
* `Tied.flush`: a flush is `fillWindow`, `emit`, `tell`, `clear`, and everything it
  puts on the wire is genuine.
* `Tied.local`, `opSim_of_body`, `Tied.deliver`: a whole operation.
-/
namespace KcpGo.L3

open KcpGo.L1 KcpGo.L2 KcpGo.Serial
open KcpGo.Link (Ctrl Data Tx Rx TxStep RxStep TxRun RxRun)

/-- A segment on the wire, sent by the owner of `t` and `x` when its counters
were `st`; `wnd` is the window its packet advertises. -/
structure WireRel (conv : UInt32) (t : KTx) (x : Rx) (st : Counters) (wnd : UInt16) (w : Segment) : Prop where
  legal : KCP.Legal conv w
  wnd : w.wnd = wnd
  ctrl : ∃ c ∈ x.ctrl, c.una = st.rcv ∧ HeadRel w.head c ∧
    (w.cmd = IKCP_CMD_ACK → ∃ i, c.ack = some i ∧ w.sn = u32 i)
  data : w.cmd = IKCP_CMD_PUSH → ∃ d, DataRel t w.head w.bytes d ∧ d.una = st.una

theorem WireRel.grows {conv : UInt32} {t t' : KTx} {x x' : Rx} {st : Counters} {wnd : UInt16} {w : Segment}
    (h : WireRel conv t x st wnd w) (ht : t.Grows t') (hx : x.Grows x') : WireRel conv t' x' st wnd w := by
  refine ⟨h.legal, h.wnd, ?_, fun hp => ?_⟩
  · obtain ⟨c, hc, hr⟩ := h.ctrl
    exact ⟨c, hx.ctrl hc, hr⟩
  · obtain ⟨d, hd, hu⟩ := h.data hp
    exact ⟨d, ⟨ht.data hd.mem, hd.sn, ht.get hd.payload⟩, hu⟩

/-- The control block `k` is the halves `t` and `x`, against the peer's. -/
structure Tied (conv : UInt32) (t₂ : KTx) (x₂ : Rx) (k : KCP) (t : KTx) (x : Rx) : Prop where
  conv : k.conv = conv
  ok : SndOk k
  snd : TxRel k.snd t
  rcv : RxRel t₂ k.rcv k.acklist x
  fwd : LinkInv t x₂
  bwd : LinkInv t₂ x

/-- No acknowledgement due is too old to be sent. -/
def Recent (t₂ : KTx) (x : Rx) : Prop := ∀ i ∈ x.acks, t₂.sent.length ≤ i + kcpBounds.age

/-- A short list of acknowledgements is recent. -/
theorem Tied.recent {conv : UInt32} {t₂ t : KTx} {x₂ x : Rx} {k : KCP} (h : Tied conv t₂ x₂ k t x)
    (hl : k.acklist.length ≤ 61) : Recent t₂ x := by
  intro i hi
  have h1 := (h.bwd.acks i hi).2
  have h2 := h.bwd.win
  have h3 := h.bwd.una_le
  have h4 : x.acks.length = k.acklist.length := by
    have := congrArg List.length h.rcv.acks
    simpa using this.symm
  simp only [kcpBounds_window, kcpBounds_fresh, kcpBounds_age] at *
  omega

/-! ## One segment -/

section Heard

variable (conv : UInt32) (F O : Prop) (t₂ : KTx) (x₂ : Rx) (t : KTx) (x : Rx) (st : Counters)

/-- In the middle of a packet with the stamp `st` that found the halves `t`
and `x`: the control block is `k`, its halves `t'` and `x'`. -/
structure Heard (k : KCP) (t' : KTx) (x' : Rx) : Prop where
  tied : Tied conv t₂ x₂ k t' x'
  tx : TxRun kcpBounds O x₂ t t'
  rx : RxRun kcpBounds F t₂ x x'
  settled : F → Settled k.rcv
  sent : t'.sent = t.sent
  una : t'.una ≤ max t.una st.rcv
  taken : x'.taken = x.taken
  recent : Recent t₂ x'

variable {conv F O t₂ x₂ t x st}

/-- The send side hears one header. -/
theorem Tied.hear {k : KCP} (h : Tied conv t₂ x₂ k t x) (pkt : PacketType) {w : Segment} {c : Ctrl}
    (hc : c ∈ x₂.ctrl) (hh : HeadRel w.head c) (hf : x₂.rcv ≤ c.una + 2 ^ 30)
    (ha : w.cmd = IKCP_CMD_ACK → ∃ i, c.ack = some i ∧ w.sn = u32 i) :
    ∃ mark, TxRel (if w.cmd = IKCP_CMD_ACK then (k.snd.head (KCP.wndOf pkt w.head) w.head.una).ack w.head.sn
      else k.snd.head (KCP.wndOf pkt w.head) w.head.una) (t.hear c (decide (pkt = .regular)) mark) := by
  have hhead := h.snd.head h.ok h.fwd hc hf hh pkt
  by_cases hack : w.cmd = IKCP_CMD_ACK
  · rw [if_pos hack]
    obtain ⟨i, hi, hsn⟩ := ha hack
    have hstep : TxStep kcpBounds False x₂ t (t.hear c (decide (pkt = .regular)) false) :=
      .hear c _ false hc hf (fun hn => hn.elim)
    have hl := h.fwd.tx hstep
    have hok : (k.snd.head (KCP.wndOf pkt w.head) w.head.una).Inv k.conv :=
      Snd.Inv.head h.ok (fun _ hw => wndOf_le hw) w.head.una
    obtain ⟨-, -, hcack⟩ := hl.ctrl c hc
    obtain ⟨hhas, hage⟩ := hcack i hi
    have h1 := h.fwd.win
    have h2 := h.fwd.una_le
    simp only [kcpBounds_window, kcpBounds_age] at h1 hage
    obtain ⟨mark, hm⟩ := hhead.ack hok hl (hl.has_lt hhas)
      (by show t.sent.length ≤ i + 2 ^ 31 + 2 ^ 20; omega)
    refine ⟨mark, ?_⟩
    have hw : w.head.sn = u32 i := hsn
    rw [hw]
    have he : t.hear c (decide (pkt = .regular)) mark =
        { t.hear c (decide (pkt = .regular)) false with
          acked := if mark then t.acked ∪ { n | some i = some n } else t.acked } := by
      simp only [Link.Tx.hear, hi]
    rw [he]
    exact hm
  · rw [if_neg hack]
    exact ⟨false, hhead⟩

theorem Heard.seg {k k' : KCP} {t' : KTx} {x' : Rx} (h : Heard conv F O t₂ x₂ t x st k t' x')
    {pkt : PacketType} {w : Segment} {wnd : UInt16} (hs : KCP.SegSpec pkt w.head w.bytes k k')
    (hw : WireRel conv t₂ x₂ st wnd w) (hf : t₂.una ≤ st.una + 2 ^ 30 ∧ x₂.rcv ≤ st.rcv + 2 ^ 30)
    (ho : O → pkt = .regular ∧ (wnd ≠ 0 → t.una ≤ st.rcv)) :
    ∃ t'' x'', Heard conv F O t₂ x₂ t x st k' t'' x'' := by
  obtain ⟨c, hc, hcu, hh, hack⟩ := hw.ctrl
  have hfc : x₂.rcv ≤ c.una + 2 ^ 30 := by rw [hcu]; exact hf.2
  obtain ⟨mark, htx⟩ := h.tied.hear pkt hc hh hfc hack
  have hcmd : w.head.cmd = w.cmd := rfl
  -- in order: what is heard is not behind what was heard before it
  have hord : O → decide (pkt = .regular) = true ∧ (c.wnd ≠ 0 → t'.una ≤ c.una) := by
    intro hO
    obtain ⟨hreg, hopen⟩ := ho hO
    refine ⟨by simp [hreg], fun hne => ?_⟩
    have hw0 : wnd ≠ 0 := by
      intro h0
      have hz : w.head.wnd = 0 := hw.wnd.trans h0
      have := hh.wnd
      rw [hz] at this
      exact hne this.symm
    have h1 := hopen hw0
    have h2 := h.una
    omega
  have hstep : TxStep kcpBounds O x₂ t' (t'.hear c (decide (pkt = .regular)) mark) := .hear c _ mark hc hfc hord
  have hfwd := h.tied.fwd.tx hstep
  have hok := (SndOk.seg hs h.tied.ok).1
  have hconv : k'.conv = conv := (congrArg Cfg.conv hs.cfg).trans h.tied.conv
  have huna : (t'.hear c (decide (pkt = .regular)) mark).una ≤ max t.una st.rcv := by
    show max t'.una c.una ≤ max t.una st.rcv
    have := h.una
    omega
  have hsnd : TxRel k'.snd (t'.hear c (decide (pkt = .regular)) mark) := by
    rw [hs.snd]
    exact htx
  by_cases hp : w.cmd = IKCP_CMD_PUSH
  · obtain ⟨k₁, hr₁, ha₁, hpush⟩ := hs.push hp
    obtain ⟨d, hd, hdu⟩ := hw.data hp
    have hfd : t₂.una ≤ d.una + 2 ^ 30 := by rw [hdu]; exact hf.1
    have hrel : RxRel t₂ k₁.rcv k₁.acklist x' := by
      rw [hr₁, ha₁]
      exact h.tied.rcv
    obtain ⟨⟨x'', hx⟩, hset⟩ := hrel.push (F := F) h.tied.bwd hpush hd hfd
    refine ⟨_, x'', ⟨hconv, hok, hsnd, hx.rel, hfwd, h.tied.bwd.rxRun hx.run⟩, h.tx.tail hstep,
      h.rx.trans hx.run, fun hF => hset (hr₁ ▸ h.settled hF), h.sent, huna, hx.taken.trans h.taken, ?_⟩
    intro i hi
    rcases hx.acks with e | e
    · exact h.recent i (e ▸ hi)
    · rw [e] at hi
      rcases List.mem_append.mp hi with hi | hi
      · exact h.recent i hi
      · simp only [List.mem_singleton] at hi
        subst hi
        obtain ⟨h1, h2, -⟩ := hd.near h.tied.bwd hfd
        have h3 := h.tied.bwd.win
        simp only [kcpBounds_window, kcpBounds_age] at h3 ⊢
        omega
  · obtain ⟨hr, ha⟩ := hs.other hp
    refine ⟨_, x', ⟨hconv, hok, hsnd, ?_, hfwd, h.tied.bwd⟩, h.tx.tail hstep, h.rx, ?_, h.sent, huna, h.taken,
      h.recent⟩
    · rw [hr, ha]
      exact h.tied.rcv
    · rw [hr]
      exact h.settled

end Heard

/-! ## Flush -/

theorem wndUnused_exact (k : KCP) (hw : k.rcvWnd.toNat ≤ 65535) :
    k.wndUnused.toNat = k.rcvWnd.toNat - k.rcvQueue.length := by
  unfold KCP.wndUnused
  split
  · rw [UInt16.toNat_ofNat', Nat.mod_eq_of_lt (by omega)]
  · rw [UInt16.toNat_zero]
    omega

/-- The counters of an endpoint with the halves `t` and `x`. -/
def countersOf (t : KTx) (x : Rx) : Counters := ⟨t.una, t.sent.length, x.rcv⟩

/-- A packet that the owner of `t` and `x` sent at the counters `st`. -/
def PktRel (conv : UInt32) (t : KTx) (x : Rx) (st : Counters) (p : Bytes) : Prop :=
  ∃ wnd, Carries (WireRel conv t x st wnd) p

theorem PktRel.grows {conv : UInt32} {t t' : KTx} {x x' : Rx} {st : Counters} {p : Bytes}
    (h : PktRel conv t x st p) (ht : t.Grows t') (hx : x.Grows x') : PktRel conv t' x' st p := by
  obtain ⟨wnd, hw⟩ := h
  exact ⟨wnd, hw.mono fun _ hr => hr.grows ht hx⟩

/-- Every header a flush writes tells the receiver's state. -/
theorem Tied.tells {conv : UInt32} {t₂ t : KTx} {x₂ x : Rx} {k : KCP} (h : Tied conv t₂ x₂ k t x)
    (hr : Recent t₂ x) {ack : Option Nat} (ha : ∀ i, ack = some i → i ∈ x.acks) :
    Link.Tells kcpBounds t₂ x ⟨x.rcv, k.wndUnused.toNat, ack⟩ := by
  refine ⟨rfl, ?_, fun hw => ?_, fun i hi => ⟨ha i hi, hr i (ha i hi)⟩⟩
  · have := k.wndUnused.toNat_lt
    simp only [kcpBounds_window]
    omega
  · have hwnd : k.rcvWnd.toNat = x.wnd := h.rcv.wnd
    have hlen : k.rcvQueue.length = x.rcv - x.taken := h.rcv.queue_length h.bwd
    rw [← hwnd] at hw
    show k.wndUnused.toNat = x.wnd - (x.rcv - x.taken)
    rw [wndUnused_exact k hw, hwnd, hlen]

section Flush

variable {conv : UInt32} {F O : Prop} {t₂ t : KTx} {x₂ x : Rx} {k k' : KCP} {ft : FlushType} {clk : Clock}
  {m : Nat} {out : List Bytes}

/-- The sender after a flush that numbers `m` segments: everything it may
send is counted as sent. -/
def txFlushed (t : KTx) (q : List Segment) : KTx :=
  { t with sent := t.sent ++ q.map content
           data := t.data ∪ { d | d.una = t.una ∧ t.una ≤ d.idx ∧ d.idx < (t.sent ++ q.map content).length ∧
             d.idx ∉ t.acked } }

/-- The receiver after a flush. -/
def rxFlushed (t₂ : KTx) (x : Rx) : Rx :=
  { x with ctrl := x.ctrl ∪ { c | Link.Tells kcpBounds t₂ x c }, acks := [] }

theorem Tied.txFlushed_run (h : Tied conv t₂ x₂ k t x) (hf : FlushSpec k ft clk m k' out) :
    TxRun kcpBounds O x₂ t (txFlushed t (k.sndQueue.take m)) := by
  have hfill : TxStep kcpBounds O x₂ t { t with sent := t.sent ++ (k.sndQueue.take m).map content } := by
    refine .fillWindow _ ?_
    cases m with
    | zero => exact .inl rfl
    | succ n =>
      right
      have h1 := hf.inflight_lt h.ok n (Nat.lt_succ_self n)
      have h2 := (sendWindow_toNat k).2.1
      have h3 : k.sndBuf.length + t.una = t.sent.length := by
        have := h.snd.len
        simpa [KCP.snd] using this
      have h4 : k.rmtWnd.toNat = t.rmtWnd := h.snd.rmt
      have h5 := hf.count
      rw [List.length_map, List.length_take, Nat.min_eq_left h5]
      omega
  refine .head hfill (.single (.emit _ ?_))
  intro d hd
  exact hd

/-- What a flush puts on the wire is genuine. -/
theorem Tied.flush_wire (h : Tied conv t₂ x₂ k t x) (hr : Recent t₂ x) (hf : FlushSpec k ft clk m k' out)
    (hsnd : TxRel k'.snd (txFlushed t (k.sndQueue.take m))) (hok : SndOk k') {w : Segment}
    (hw : Control k w ∨ Pushed k k' w) :
    WireRel conv (txFlushed t (k.sndQueue.take m)) (rxFlushed t₂ x)
      (countersOf (txFlushed t (k.sndQueue.take m)) (rxFlushed t₂ x)) k.wndUnused w := by
  have hnxt : k.rcvNxt = u32 x.rcv := h.rcv.nxt
  have tell : ∀ ack : Option Nat, (∀ i, ack = some i → i ∈ x.acks) →
      (⟨x.rcv, k.wndUnused.toNat, ack⟩ : Ctrl) ∈ (rxFlushed t₂ x).ctrl := fun ack ha => .inr (h.tells hr ha)
  rcases hw with hc | hp
  · have hhead : ∀ ack, HeadRel w.head ⟨x.rcv, k.wndUnused.toNat, ack⟩ := by
      intro ack
      exact ⟨hc.una.trans hnxt, congrArg UInt16.toNat hc.wnd⟩
    have hnotpush : w.cmd ≠ IKCP_CMD_PUSH := by
      intro he
      rcases hc.kind with ⟨h1, -⟩ | h1 | h1 <;> exact absurd (he.symm.trans h1) (by decide)
    refine ⟨⟨hc.conv.trans h.conv, ?_, ?_⟩, hc.wnd, ?_, fun he => absurd he hnotpush⟩
    · rcases hc.kind with ⟨h1, -⟩ | h1 | h1 <;> rw [h1] <;> rfl
    · simp [Segment.len, Segment.bytes, hc.data]
    · rcases hc.kind with ⟨-, a, ha, hsn⟩ | h1
      · -- an acknowledgement of an item of the list
        have hmem : a.sn ∈ x.acks.map u32 := by
          rw [← h.rcv.acks]
          exact List.mem_map_of_mem ha
        obtain ⟨i, hi, hi'⟩ := List.mem_map.mp hmem
        refine ⟨_, tell (some i) (fun j hj => ?_), rfl, hhead _, fun _ => ⟨i, rfl, ?_⟩⟩
        · cases hj
          exact hi
        · rw [← hsn, hi']
      · refine ⟨_, tell none (fun j hj => by cases hj), rfl, hhead _, fun he => ?_⟩
        rcases h1 with h1 | h1 <;> exact absurd (he.symm.trans h1) (by decide)
  · have hcell := hok.cell hp.mem
    have hconv : k'.conv = k.conv := congrArg Cfg.conv hf.cfg
    have hlive : w.acked = 0 := by
      rcases hcell.data with ⟨h1, -⟩ | ⟨h1, -⟩
      · exact h1
      · exact absurd h1 hp.live
    have hnotack : w.cmd ≠ IKCP_CMD_ACK := by
      rw [hcell.cmd]
      decide
    refine ⟨⟨hcell.conv.trans (hconv.trans h.conv), by rw [hcell.cmd]; rfl, ?_⟩, hp.wnd, ?_, fun _ => ?_⟩
    · have := hcell.len
      unfold maxPacketSize at this
      omega
    · exact ⟨_, tell none (fun j hj => by cases hj), rfl, ⟨hp.una.trans hnxt, congrArg UInt16.toNat hp.wnd⟩,
        fun he => absurd he hnotack⟩
    · -- the segment sits in the buffer at its number
      obtain ⟨j, hj⟩ := List.getElem?_of_mem hp.mem
      have hj' : k'.snd.buf[j]? = some w.core := by simp [KCP.snd, hj]
      have hrel := hsnd.cells j w.core hj'
      obtain ⟨p, hget, hfrg, hdata⟩ := hrel.payload
      have hd := hdata hlive
      have hbytes : w.bytes = p.2 := by
        have : w.data = some p.2 := hd
        simp [Segment.bytes, this]
      obtain ⟨hlt, -⟩ := List.getElem?_eq_some_iff.mp hget
      have hsn : w.core.sn = u32 (t.una + j) := hsnd.sn hok hj'
      refine ⟨⟨t.una + j, t.una⟩, ⟨.inr ⟨rfl, Nat.le_add_right _ _, hlt, ?_⟩, hsn, ?_⟩, rfl⟩
      · intro hin
        have : w.core.acked = 1 := hrel.acked.mpr hin
        rw [Segment.core_acked, hlive] at this
        cases this
      · rw [hbytes]
        have : w.head.frg = p.1 := hfrg
        rw [this]
        exact hget

/-- **A flush refines the link.** -/
theorem Tied.flush (h : Tied conv t₂ x₂ k t x) (hr : Recent t₂ x) (hset : F → Settled k.rcv)
    (hf : FlushSpec k ft clk m k' out) :
    Tied conv t₂ x₂ k' (txFlushed t (k.sndQueue.take m)) (rxFlushed t₂ x) ∧
      TxRun kcpBounds O x₂ t (txFlushed t (k.sndQueue.take m)) ∧ RxRun kcpBounds F t₂ x (rxFlushed t₂ x) ∧
      ∀ p ∈ out, PktRel conv (txFlushed t (k.sndQueue.take m)) (rxFlushed t₂ x)
        (countersOf (txFlushed t (k.sndQueue.take m)) (rxFlushed t₂ x)) p := by
  have hconv : k'.conv = k.conv := congrArg Cfg.conv hf.cfg
  have hok : SndOk k' := hf.keeps_snd h.ok
  have htx : TxRun kcpBounds O x₂ t (txFlushed t (k.sndQueue.take m)) := h.txFlushed_run hf
  have hrx : RxRun kcpBounds F t₂ x (rxFlushed t₂ x) := by
    have htell : RxStep kcpBounds F t₂ x { x with ctrl := x.ctrl ∪ { c | Link.Tells kcpBounds t₂ x c } } :=
      .tell _ (fun c hc => hc) (fun hF => h.rcv.settled h.bwd (hset hF))
    exact .head htell (.single .clear)
  have hsnd : TxRel k'.snd (txFlushed t (k.sndQueue.take m)) := by
    rw [hf.snd]
    have hadm := h.snd.fillWindow h.ok h.fwd (m := m) hf.count
    exact ⟨hadm.una, hadm.len, hadm.rmt, fun j s hs => ⟨(hadm.cells j s hs).payload, (hadm.cells j s hs).acked⟩⟩
  have hrcv : RxRel t₂ k'.rcv k'.acklist (rxFlushed t₂ x) := by
    rw [hf.rcv, hf.acklist]
    exact ⟨h.rcv.nxt, h.rcv.wnd, h.rcv.queue, h.rcv.order, h.rcv.heap, h.rcv.segs, h.rcv.stored, rfl⟩
  refine ⟨⟨hconv.trans h.conv, hok, hsnd, hrcv, h.fwd.txRun htx, h.bwd.rxRun hrx⟩, htx, hrx, ?_⟩
  intro p hp
  exact ⟨k.wndUnused, (hf.packets p hp).mono fun w hw => h.flush_wire hr hf hsnd hok hw⟩

end Flush

/-! ## Whole operations -/

section Op

variable (conv : UInt32) (F O : Prop) (t₂ : KTx) (x₂ : Rx) (t : KTx) (x : Rx)

/-- The body of an operation that took `n` segments out of `rcv_queue`. -/
structure BodySim (n : Nat) (e : KCP) (t' : KTx) (x' : Rx) : Prop where
  tied : Tied conv t₂ x₂ e t' x'
  tx : TxRun kcpBounds O x₂ t t'
  rx : RxRun kcpBounds F t₂ x x'
  settled : F → Settled e.rcv
  sent : t'.sent = t.sent
  taken : x'.taken = x.taken + n
  recent : Recent t₂ x'

/-- A whole operation; `e` is the state after its body. -/
structure OpSim (n : Nat) (e k' : KCP) (out : List Bytes) (t' : KTx) (x' : Rx) : Prop where
  tied : Tied conv t₂ x₂ k' t' x'
  tx : TxRun kcpBounds O x₂ t t'
  rx : RxRun kcpBounds F t₂ x x'
  settled : F → Settled k'.rcv
  queue : t'.sent ++ k'.sndQueue.map content = t.sent ++ e.sndQueue.map content
  taken : x'.taken = x.taken + n
  packets : ∀ p ∈ out, PktRel conv t' x' (countersOf t' x') p
  acks : k'.acklist.length ≤ 61

variable {conv F O t₂ x₂ t x} {k : KCP}

/-- A body and its flush make an operation. -/
theorem opSim_of_body {k' : KCP} {op : Op} {o : Out} (hs : step k op = .ok (k', o))
    (hbody : ∀ e, Body k op e →
      (∃ t' x', BodySim conv F O t₂ x₂ t x (consumed k op).length e t' x') ∧
        (flushEntry k op = none → e.acklist.length ≤ 61)) :
    ∃ e t' x', Body k op e ∧ OpSim conv F O t₂ x₂ t x (consumed k op).length e k' o.pkts t' x' := by
  obtain ⟨e, hb, hcase⟩ := step_split hs
  obtain ⟨⟨t', x', h⟩, hacks⟩ := hbody e hb
  rcases hcase with ⟨rfl, hp, hnone⟩ | ⟨-, ft, clk, nx, hf⟩
  · refine ⟨k', t', x', hb, h.tied, h.tx, h.rx, h.settled, by rw [h.sent], h.taken, ?_, hacks hnone⟩
    intro p hm
    rw [hp] at hm
    cases hm
  · obtain ⟨m, hspec⟩ := KCP.flush_spec hf
    obtain ⟨h1, h2, h3, h4⟩ := h.tied.flush (O := O) h.recent h.settled hspec
    have hqueue : k'.sndQueue = e.sndQueue.drop m := congrArg Snd.queue hspec.snd
    refine ⟨e, _, _, hb, h1, h.tx.trans h2, h.rx.trans h3, ?_, ?_, h.taken, h4, by simp [hspec.acklist]⟩
    · intro hF
      rw [hspec.rcv]
      exact h.settled hF
    · show t'.sent ++ (e.sndQueue.take m).map content ++ k'.sndQueue.map content = _
      rw [hqueue, List.append_assoc, ← List.map_append, List.take_append_drop, h.sent]

/-- The state changed in nothing the links see. -/
theorem Tied.same {e : KCP} (h : Tied conv t₂ x₂ k t x) (hs : e.snd = k.snd) (hr : e.rcv = k.rcv)
    (ha : e.acklist = k.acklist) (hc : e.conv = k.conv) : Tied conv t₂ x₂ e t x :=
  ⟨hc.trans h.conv, (h.ok.of_snd hs hc).1, hs ▸ h.snd, by rw [hr, ha]; exact h.rcv, h.fwd, h.bwd⟩

/-- What an application calls changes one endpoint only. -/
theorem Tied.local {op : Op} {e : KCP} (h : Tied conv t₂ x₂ k t x) (hb : Body k op e) (hop : appOp op = true)
    (hF : F → KeepsWnd op) (hset : F → Settled k.rcv) (ha : k.acklist.length ≤ 61) :
    (∃ t' x', BodySim conv F O t₂ x₂ t x (consumed k op).length e t' x') ∧
      (flushEntry k op = none → e.acklist.length ≤ 61) := by
  have hrec := h.recent ha
  have unchanged : consumed k op = [] → e.snd = k.snd → e.rcv = k.rcv → e.acklist = k.acklist →
      e.conv = k.conv → (∃ t' x', BodySim conv F O t₂ x₂ t x (consumed k op).length e t' x') ∧
        (flushEntry k op = none → e.acklist.length ≤ 61) := by
    intro hc hs hr hal hcv
    refine ⟨⟨t, x, h.same hs hr hal hcv, .refl, .refl, ?_, rfl, by simp [hc], hrec⟩, fun _ => by rw [hal]; exact ha⟩
    rw [hr]
    exact hset
  cases hb with
  | send hs =>
    obtain ⟨q, rfl, hq⟩ := KCP.send_spec hs
    have hok := h.ok
    refine ⟨⟨t, x, ⟨h.conv, ⟨hok.run, hok.nxt, hok.len, hok.rmt, hok.cells, hq hok.queue⟩,
      ⟨h.snd.una, h.snd.len, h.snd.rmt, h.snd.cells⟩, h.rcv, h.fwd, h.bwd⟩, .refl, .refl, hset, rfl, rfl, hrec⟩,
      fun _ => ha⟩
  | recv hr =>
    obtain ⟨hs, hc, -, hal⟩ := KCP.recv_rest hr
    obtain ⟨⟨x', hrun, hrel, hacks, htaken⟩, hset'⟩ := h.rcv.recv (F := F) h.bwd hr
    have hcv := congrArg Cfg.conv hc
    refine ⟨⟨t, x', ⟨hcv.trans h.conv, (h.ok.of_snd hs hcv).1, hs ▸ h.snd, hrel, h.fwd, h.bwd.rxRun hrun⟩, .refl,
      hrun, fun hf => hset' (hset hf), rfl, htaken, ?_⟩, fun _ => by rw [hal]; exact ha⟩
    intro i hi
    rw [hacks] at hi
    exact hrec i hi
  | input hi => cases hop
  | wndSize a b =>
    obtain ⟨hs, hal, h1, h2, h3, hwnd⟩ := KCP.wndSize_rest k a b
    have hcv : (k.wndSize a b).conv = k.conv := by
      unfold KCP.wndSize
      dsimp only
      split <;> split <;> rfl
    by_cases hf : F
    · refine unchanged rfl hs ?_ hal hcv
      simp only [KCP.rcv, h1, h2, h3, hwnd (hF hf)]
    · -- the window changes under the link's receiver
      refine ⟨⟨t, { x with wnd := (k.wndSize a b).rcvWnd.toNat }, ⟨hcv.trans h.conv, (h.ok.of_snd hs hcv).1,
        hs ▸ h.snd, ?_, h.fwd, h.bwd.rx (.resize _ hf)⟩, .refl, .single (.resize _ hf), fun hf' => absurd hf' hf,
        rfl, rfl, hrec⟩, fun _ => by rw [hal]; exact ha⟩
      have hr := h.rcv
      rw [hal]
      refine ⟨?_, rfl, ?_, ?_, ?_, ?_, ?_, hr.acks⟩
      · show (k.wndSize a b).rcvNxt = _
        rw [h1]
        exact hr.nxt
      · show (k.wndSize a b).rcvQueue.map content = _
        rw [h3]
        exact hr.queue
      · show Consec Segment.sn _ (k.wndSize a b).rcvQueue
        rw [h3]
        exact hr.order
      · show SegHeap.Inv (k.wndSize a b).rcvNxt _ (k.wndSize a b).rcvBuf
        rw [h1, h2]
        exact hr.heap
      · show ∀ s ∈ (k.wndSize a b).rcvBuf.segments, _
        rw [h2]
        exact hr.segs
      · show ∀ i ∈ x.stored, (k.wndSize a b).rcvBuf.has (u32 i) = true
        rw [h2]
        exact hr.stored
  | noDelay a b c d =>
    obtain ⟨hr, hs, hal⟩ := KCP.noDelay_rest k a b c d
    refine unchanged rfl hs hr hal ?_
    unfold KCP.noDelay
    dsimp only
    split <;> split <;> split <;> split <;> rfl
  | setMtu hm =>
    obtain ⟨hr, hs, hal, hcv, -⟩ := KCP.setMtu_rest hm
    exact unchanged rfl hs hr hal hcv
  | setStream on => cases hop
  | idle hidle hsame =>
    refine unchanged ?_ hsame.snd hsame.rcv hsame.acklist (congrArg Cfg.conv hsame.cfg)
    cases op <;> first | rfl | cases hidle

/-! ## Delivery -/

theorem length_le_encodeAll (ws : List Segment) : ws.length ≤ (encodeAll ws).length := by
  induction ws with
  | nil => simp
  | cons w ws ih =>
    rw [encodeAll_cons, List.length_append, List.length_cons]
    have : 24 ≤ w.wire.length := by simp [Segment.wire]
    omega

/-- The header loop on a genuine packet runs to its end. -/
theorem inputBody_genuine {e : KCP} {data : Bytes} {pkt : PacketType} {clk clk' : Clock} {ret : Option Int}
    {fl : Bool} {P : Segment → Prop} (h : k.inputBody data pkt clk = .ok (e, ret, fl, clk')) (hp : Carries P data)
    (hl : ∀ w, P w → KCP.Legal k.conv w) :
    e = k ∨ ret = none ∧ ∃ ws st, (∀ w ∈ ws, P w) ∧ KCP.inputSegs pkt ws ⟨k, 0, false, false⟩ = .ok st ∧
      Same st.k e ∧ fl = st.flushSegments := by
  rcases KCP.inputBody_spec h with ⟨-, rfl, -⟩ | ⟨-, st, hloop, hsame, hfl⟩
  · exact .inl rfl
  · right
    obtain ⟨ws, rfl, hws⟩ := hp
    rw [KCP.inputLoop_encodeAll (fun w hw => hl w (hws w hw)) (length_le_encodeAll ws)] at hloop
    obtain ⟨st', hst, hloop⟩ := Go.bind_ok hloop
    cases hloop
    exact ⟨rfl, ws, st, hws, hst, hsame, hfl⟩

/-- The segments of a genuine packet one after the other. -/
theorem Tied.heard {pkt : PacketType} {ws : List Segment} {st : Counters} {wnd : UInt16} {st' : InLoop}
    (h : Tied conv t₂ x₂ k t x) (hws : ∀ w ∈ ws, WireRel conv t₂ x₂ st wnd w)
    (hs : KCP.inputSegs pkt ws ⟨k, 0, false, false⟩ = .ok st')
    (hf : t₂.una ≤ st.una + 2 ^ 30 ∧ x₂.rcv ≤ st.rcv + 2 ^ 30)
    (ho : O → pkt = .regular ∧ (wnd ≠ 0 → t.una ≤ st.rcv)) (hset : F → Settled k.rcv)
    (ha : k.acklist.length ≤ 61) : ∃ t' x', Heard conv F O t₂ x₂ t x st st'.k t' x' := by
  refine KCP.inputSegs_keeps (P := fun k => ∃ t' x', Heard conv F O t₂ x₂ t x st k t' x') hs ?_ ?_
  · rintro w hw k₁ k₂ hspec ⟨t', x', hh⟩
    exact hh.seg hspec (hws w hw) hf ho
  · exact ⟨t, x, h, .refl, .refl, hset, rfl, Nat.le_max_left _ _, rfl, h.recent ha⟩

theorem Tied.deliver {data : Bytes} {pkt : PacketType} {nd : Bool} {clk : Clock} {st : Counters} {e : KCP}
    {wnd : UInt16} (h : Tied conv t₂ x₂ k t x) (hb : Body k (.input data pkt nd clk) e)
    (hp : Carries (WireRel conv t₂ x₂ st wnd) data)
    (hf : t₂.una ≤ st.una + 2 ^ 30 ∧ x₂.rcv ≤ st.rcv + 2 ^ 30)
    (ho : O → pkt = .regular ∧ (wnd ≠ 0 → t.una ≤ st.rcv)) (hset : F → Settled k.rcv)
    (ha : k.acklist.length ≤ 61) (hmtu : k.mtu.toNat ≤ 1472) :
    (∃ t' x', BodySim conv F O t₂ x₂ t x 0 e t' x') ∧
      (flushEntry k (.input data pkt nd clk) = none → e.acklist.length ≤ 61) := by
  have hrec := h.recent ha
  cases hb with
  | idle hidle => cases hidle
  | @input _ _ _ _ clk' _ ret fl hi =>
    rcases inputBody_genuine hi hp (fun w hw => h.conv ▸ hw.legal) with
      rfl | ⟨rfl, ws, st', hws, hsegs, hsame, hfl⟩
    · exact ⟨⟨t, x, h, .refl, .refl, hset, rfl, rfl, hrec⟩, fun _ => ha⟩
    · obtain ⟨t', x', hh⟩ := h.heard hws hsegs hf ho hset ha
      have hcfg : e.cfg = k.cfg := hsame.cfg.trans
        (KCP.inputSegs_keeps (P := fun k₁ => k₁.cfg = k.cfg) hsegs (fun w _ k₁ k₂ hs hk => hs.cfg.trans hk) rfl)
      refine ⟨⟨t', x', hh.tied.same hsame.snd hsame.rcv hsame.acklist (congrArg Cfg.conv hsame.cfg), hh.tx, hh.rx,
        ?_, hh.sent, hh.taken, hh.recent⟩, ?_⟩
      · rw [hsame.rcv]
        exact hh.settled
      · intro hnone
        have hm : e.mtu = k.mtu := congrArg Cfg.mtu hcfg
        simp only [flushEntry, hi] at hnone
        split at hnone
        · cases hnone
        · rename_i hw
          unfold KCP.flushWanted at hw
          split at hw
          · simp at hw
          split at hw
          · simp at hw
          rename_i hlt
          have hdiv : (e.mtu / UInt32.ofNat IKCP_OVERHEAD).toNat = e.mtu.toNat / 24 := UInt32.toNat_div _ _
          rw [hdiv, hm] at hlt
          omega

end Op

end KcpGo.L3
