import KcpGo.L3Protocol.Shift

/-!
# Shifting the sequence numbers: `flush`, every operation, every run

* `flush_shift`: the packets of a flush agree up to the shifts, and so does
  the state after it.
* `step_shift`: one operation.
* `shift_run`: a run from a shifted state on shifted input is the same run.
-/
namespace KcpGo.L2

open KcpGo.L1 KcpGo.Serial List

variable {c e : UInt32}
variable {w w' : Writer} {s s' seg seg' : Segment} {k k' : KCP} {x x' : KCP.Xmit} {l l' : List Segment}

/-! ## Outgoing packets -/

/-- An outgoing segment with its numbers shifted: una and the sn of an ACK
refer to the receive side, the sn of a PUSH to the send side; window probes
and answers do not use theirs. -/
structure WireShift (c e : UInt32) (w w' : Segment) : Prop where
  rest : w' = { w with sn := w'.sn, una := w.una + e }
  ack : w.cmd = IKCP_CMD_ACK → w'.sn = w.sn + e
  push : w.cmd = IKCP_CMD_PUSH → w'.sn = w.sn + c
  kind : KCP.isCmd w.cmd = true

def PktShift (c e : UInt32) (p p' : Bytes) : Prop :=
  ∃ ws ws', p = encodeAll ws ∧ p' = encodeAll ws' ∧ Forall₂ (WireShift c e) ws ws'

theorem WireShift.bytes {w w' : Segment} (h : WireShift c e w w') : w'.bytes = w.bytes := by
  rw [h.rest]
  rfl

theorem PktShift.length {p p' : Bytes} (h : PktShift c e p p') : p'.length = p.length := by
  obtain ⟨ws, ws', rfl, rfl, hw⟩ := h
  induction hw with
  | nil => rfl
  | cons hs _ ih => simp [ih, Segment.len, hs.bytes]

theorem PktShift.snoc {p p' : Bytes} (h : PktShift c e p p') {w w' : Segment} (hw : WireShift c e w w') :
    PktShift c e (p ++ w.wire) (p' ++ w'.wire) := by
  obtain ⟨ws, ws', rfl, rfl, hws⟩ := h
  exact ⟨ws ++ [w], ws' ++ [w'], by simp, by simp, rel_append hws (.cons hw .nil)⟩

structure WriterShift (c e : UInt32) (w w' : Writer) : Prop where
  cur : PktShift c e w.cur w'.cur
  out : Forall₂ (PktShift c e) w.out w'.out

theorem writerShift_empty : WriterShift c e ⟨[], []⟩ ⟨[], []⟩ := ⟨⟨[], [], rfl, rfl, .nil⟩, .nil⟩

theorem makeSpace_shift (h : WriterShift c e w w') (mtu : UInt32) (n : Nat) :
    WriterShift c e (w.makeSpace mtu n) (w'.makeSpace mtu n) := by
  unfold Writer.makeSpace
  refine Go.rel_ite (by rw [h.cur.length]) (fun _ => ?_) fun _ => h
  exact ⟨⟨[], [], rfl, rfl, .nil⟩, rel_append h.out (.cons h.cur .nil)⟩

theorem encode_shift (h : WriterShift c e w w') (n : Nat)
    (hs : WireShift c e s s') (hd : s.data = none) :
    Go.Both (WriterShift c e) (w.encode n s) (w'.encode n s') := by
  have hd' : s'.data = none := by rw [hs.rest]; exact hd
  have hwire : ∀ x : Segment, x.data = none → x.header = x.wire := by
    intro x hx
    simp [Segment.wire, Segment.bytes, hx]
  unfold Writer.encode
  refine Go.rel_ite (by rw [h.cur.length]) (fun _ => rfl) fun _ => ⟨?_, h.out⟩
  dsimp only
  rw [hwire s hd, hwire s' hd']
  exact h.cur.snoc hs

/-- Header, payload and what follows. -/
theorem write_shift {α α' : Type} {r : α → α' → Prop} (h : WriterShift c e w w') (n : Nat)
    (hs : WireShift c e s s') {f : Writer → Go α} {f' : Writer → Go α'}
    (hf : ∀ v v', WriterShift c e v v' → Go.Both r (f v) (f' v')) :
    Go.Both r (w.encode n s >>= fun v => v.copyData n s.bytes >>= f)
      (w'.encode n s' >>= fun v => v.copyData n s'.bytes >>= f') := by
  have hlen := h.cur.length
  refine Go.Both.bind (r := fun v v' => v = { w with cur := w.cur ++ s.header } ∧
    v' = { w' with cur := w'.cur ++ s'.header }) ?_ ?_
  · unfold Writer.encode
    exact Go.rel_ite (by rw [hlen]) (fun _ => rfl) fun _ => ⟨rfl, rfl⟩
  · rintro v v' ⟨rfl, rfl⟩
    refine Go.Both.bind (r := WriterShift c e) ?_ hf
    unfold Writer.copyData
    refine Go.rel_ite ?_ (fun _ => rfl) fun _ => ⟨?_, h.out⟩
    · simp [hlen, hs.bytes]
    · simpa [Segment.wire] using h.cur.snoc hs

theorem finish_shift (h : WriterShift c e w w') :
    Forall₂ (PktShift c e) w.finish w'.finish := by
  unfold Writer.finish
  refine Go.rel_ite ?_ (fun _ => h.out) fun _ => rel_append h.out (.cons h.cur .nil)
  rw [← List.length_eq_zero_iff, ← List.length_eq_zero_iff, h.cur.length]

/-! ## The phases of `flush` -/

/-- The header templates of the two runs. -/
structure TemplateShift (e : UInt32) (seg seg' : Segment) : Prop where
  rest : seg' = { seg with sn := seg'.sn, una := seg.una + e }
  data : seg.data = none

theorem flushAcks_shift (h : ShiftOf c e k k') : ∀ (l : List AckItem) {seg seg' : Segment}
    {w w' : Writer}, TemplateShift e seg seg' → seg.cmd = IKCP_CMD_ACK → WriterShift c e w w' →
    Go.Both (fun r r' => TemplateShift e r.1 r'.1 ∧ WriterShift c e r.2 r'.2) (k.flushAcks l seg w)
      (k'.flushAcks (l.map (AckItem.shift e)) seg' w') := by
  obtain ⟨b, hp, q, rfl, -⟩ := h
  intro l
  induction l with
  | nil => exact fun ht _ hw => ⟨ht, hw⟩
  | cons a rest ih =>
    intro seg seg' w w' ht hc hw
    rw [List.map_cons, KCP.flushAcks, KCP.flushAcks]
    have hms := makeSpace_shift hw k.mtu IKCP_OVERHEAD
    refine Go.rel_ite ?_ (fun _ => ?_) fun _ => ih ht hc hms
    · simp only [AckItem.shift, itimediff_shift, List.map_eq_nil_iff]
    · have hs : WireShift c e { seg with sn := a.sn, ts := a.ts }
          { seg' with sn := a.sn + e, ts := a.ts } := by
        refine ⟨?_, fun _ => rfl, fun hp => absurd (hc.symm.trans hp) (by decide), ?_⟩
        · dsimp only
          rw [ht.rest]
        · simp [KCP.isCmd, hc]
      refine (encode_shift hms k.bufLen hs ht.data).bind fun v v' hv => ih ⟨?_, ht.data⟩ hc hv
      exact hs.rest

theorem probeTimer_shift (h : ShiftOf c e k k') (clk : Clock) :
    ShiftOf c e (k.probeTimer clk).1 (k'.probeTimer clk).1 ∧
      (k'.probeTimer clk).2 = (k.probeTimer clk).2 := by
  obtain ⟨b, hp, q, rfl, hb, hh, hq⟩ := h
  have hk : ∀ p t w, ShiftOf c e { k with probe := p, tsProbe := t, probeWait := w } _ :=
    fun p t w => ⟨b, hp, q, rfl, hb, hh, hq⟩
  unfold KCP.probeTimer
  refine Go.rel_ite (r := fun (x y : KCP × Clock) => ShiftOf c e x.1 y.1 ∧ y.2 = x.2) Iff.rfl
    (fun _ => ⟨?_, rfl⟩) fun _ => ⟨hk _ _ _, rfl⟩
  exact Go.rel_ite Iff.rfl (fun _ => hk _ _ _) fun _ => Go.rel_ite Iff.rfl (fun _ => hk _ _ _) fun _ => hk _ _ _

theorem flushProbe_shift (h : ShiftOf c e k k') (flag : UInt32) {cmd : UInt8}
    (hcmd : cmd = IKCP_CMD_WASK ∨ cmd = IKCP_CMD_WINS)
    (ht : TemplateShift e seg seg') (hw : WriterShift c e w w') :
    Go.Both (fun r r' => TemplateShift e r.1 r'.1 ∧ WriterShift c e r.2 r'.2) (k.flushProbe flag cmd seg w)
      (k'.flushProbe flag cmd seg' w') := by
  obtain ⟨b, hp, q, rfl, -⟩ := h
  unfold KCP.flushProbe
  refine Go.rel_ite Iff.rfl (fun _ => ?_) fun _ => ⟨ht, hw⟩
  have hrest : ({ seg' with cmd := cmd } : Segment) =
      { ({ seg with cmd := cmd } : Segment) with sn := seg'.sn, una := seg.una + e } := by
    rw [ht.rest]
  have hkind : cmd ≠ IKCP_CMD_ACK ∧ cmd ≠ IKCP_CMD_PUSH ∧ KCP.isCmd cmd = true := by
    rcases hcmd with rfl | rfl <;> decide
  have hs : WireShift c e { seg with cmd := cmd } { seg' with cmd := cmd } :=
    ⟨hrest, fun h => absurd h hkind.1, fun h => absurd h hkind.2.1, hkind.2.2⟩
  exact (encode_shift (makeSpace_shift hw k.mtu IKCP_OVERHEAD) k.bufLen hs ht.data).bind
    fun v v' hv => ⟨⟨hrest, ht.data⟩, hv⟩

theorem flushProbes_shift (h : ShiftOf c e k k')
    (ht : TemplateShift e seg seg') (hw : WriterShift c e w w') :
    Go.Both (fun r r' => TemplateShift e r.1 r'.1 ∧ WriterShift c e r.2 r'.2) (k.flushProbes seg w)
      (k'.flushProbes seg' w') :=
  (flushProbe_shift h _ (.inl rfl) ht hw).bind fun _ _ hr => flushProbe_shift h _ (.inr rfl) hr.1 hr.2

theorem fillWindow_shift (cwnd : UInt32) : ∀ (q : List Segment) {k k' : KCP}, ShiftOf c e k k' →
    ShiftOf c e (k.fillWindow cwnd q).1 (k'.fillWindow cwnd q).1 ∧
      (k'.fillWindow cwnd q).2 = (k.fillWindow cwnd q).2 := by
  intro q
  induction q with
  | nil =>
    rintro k k' ⟨b, hp, r, rfl, hb, hh, hq⟩
    exact ⟨⟨b, hp, r, rfl, hb, hh, hq⟩, rfl⟩
  | cons s q ih =>
    rintro k k' ⟨b, hp, r, rfl, hb, hh, hq⟩
    rw [KCP.fillWindow, KCP.fillWindow]
    refine Go.rel_ite (r := fun (x y : KCP × Nat) => ShiftOf c e x.1 y.1 ∧ y.2 = x.2) ?_
      (fun _ => ⟨⟨b, hp, r, rfl, hb, hh, hq⟩, rfl⟩) fun _ => ?_
    · dsimp only
      rw [add_comm_shift k.sndUna cwnd c, itimediff_shift]
    · have hcell : CellShift c (KCP.numbered k.conv k.sndNxt s) (KCP.numbered k.conv (k.sndNxt + c) s) := rfl
      have hbuf : Forall₂ (CellShift c) (k.sndBuf ++ [KCP.numbered k.conv k.sndNxt s])
          (b ++ [KCP.numbered k.conv (k.sndNxt + c) s]) := rel_append hb (.cons hcell .nil)
      dsimp only
      rw [add_comm_shift k.sndNxt 1 c]
      have := ih (k := { k with sndBuf := k.sndBuf ++ [KCP.numbered k.conv k.sndNxt s]
                                sndNxt := k.sndNxt + 1 }) ⟨_, hp, r, rfl, hbuf, hh, hq⟩
      exact ⟨this.1, congrArg (· + 1) this.2⟩

/-! ## Retransmission -/

/-- The variables of phase 5 side by side. -/
structure XmitShift (c e : UInt32) (x x' : KCP.Xmit) : Prop where
  w : WriterShift c e x.w x'.w
  rest : x' = { x with w := x'.w }

theorem nearest_shift (h : XmitShift c e x x') (hs : CellShift c s s') :
    XmitShift c e (KCP.nearest x s) (KCP.nearest x' s') := by
  obtain ⟨hw, hr⟩ := h
  unfold KCP.nearest
  rw [hs.resendts]
  refine Go.rel_ite ?_ (fun _ => ⟨hw, ?_⟩) fun _ => ⟨hw, hr⟩
  · rw [hr]
  · dsimp only
    rw [hr]

theorem reason_shift (hs : CellShift c s s') (resent : UInt32) (n : Nat) (t : UInt32) :
    KCP.reason resent n t s' = KCP.reason resent n t s := by
  unfold KCP.reason
  rw [hs.xmit, hs.fastack, hs.resendts]

theorem stamp_shift (h : ShiftOf c e k k')
    (ht : TemplateShift e seg seg') (r : KCP.Reason) (hs : CellShift c s s')
    (hx : XmitShift c e x x') :
    CellShift c (k.stamp seg r x s) (k'.stamp seg' r x' s') := by
  obtain ⟨b, hp, q, rfl, -⟩ := h
  have hw : seg'.wnd = seg.wnd := by rw [ht.rest]
  unfold CellShift KCP.stamp
  rw [hs, hw, hx.rest]
  cases r <;> rfl

theorem stamp_wire (h : ShiftOf c e k k')
    (ht : TemplateShift e seg seg') (r : KCP.Reason) (hs : CellShift c s s')
    (hcmd : s.cmd = IKCP_CMD_PUSH) (hx : XmitShift c e x x') :
    WireShift c e (k.stamp seg r x s) (k'.stamp seg' r x' s') := by
  have hcell := stamp_shift h ht r hs hx
  have hc : (k.stamp seg r x s).cmd = IKCP_CMD_PUSH :=
    (congrArg Segment.cmd (KCP.rearm_core k x.current s r)).trans hcmd
  have huna : (k'.stamp seg' r x' s').una = (k.stamp seg r x s).una + e := by
    show seg'.una = seg.una + e
    rw [ht.rest]
  refine ⟨?_, fun ha => absurd (hc.symm.trans ha) (by decide), fun _ => hcell.sn, by simp [KCP.isCmd, hc]⟩
  rw [hcell.sn, ← huna]
  exact hcell

theorem transmit_shift (h : ShiftOf c e k k')
    (ht : TemplateShift e seg seg') (r : KCP.Reason) (hs : CellShift c s s')
    (hcmd : s.cmd = IKCP_CMD_PUSH) (hx : XmitShift c e x x') :
    Go.Both (fun p p' => CellShift c p.1 p'.1 ∧ XmitShift c e p.2 p'.2) (k.transmit seg r s x)
      (k'.transmit seg' r s' x') := by
  have hcell := stamp_shift h ht r hs hx
  have hwire := stamp_wire h ht r hs hcmd hx
  have hmtu : k'.mtu = k.mtu ∧ k'.bufLen = k.bufLen ∧ k'.deadLink = k.deadLink := by
    obtain ⟨b, hp, q, rfl, -⟩ := h
    exact ⟨rfl, rfl, rfl⟩
  unfold KCP.transmit
  rw [hmtu.1, hmtu.2.1, hcell.len]
  refine write_shift (makeSpace_shift hx.w k.mtu _) k.bufLen hwire fun v v' hv => Go.Both.ok ⟨hcell, hv, ?_⟩
  unfold KCP.count
  rw [hmtu.2.2, hcell.xmit, hx.rest]

theorem resendOne_shift (h : ShiftOf c e k k')
    (ht : TemplateShift e seg seg') (resent : UInt32) (n : Nat) (hs : CellShift c s s')
    (hcmd : s.cmd = IKCP_CMD_PUSH) (hx : XmitShift c e x x') :
    Go.Both (fun p p' => CellShift c p.1 p'.1 ∧ XmitShift c e p.2 p'.2) (k.resendOne seg resent n s x)
      (k'.resendOne seg' resent n s' x') := by
  have hcur : x'.current = x.current := by rw [hx.rest]
  unfold KCP.resendOne
  refine Go.rel_ite (by rw [hs.acked]) (fun _ => ⟨hs, hx⟩) fun _ => ?_
  rw [hcur, reason_shift hs]
  cases hr : KCP.reason resent n x.current s with
  | none => exact Go.Both.ok ⟨hs, nearest_shift hx hs⟩
  | some r =>
    exact (transmit_shift h ht r hs hcmd hx).bind fun p p' hp => Go.Both.ok ⟨hp.1, nearest_shift hp.2 hp.1⟩

theorem resendLoop_shift (h : ShiftOf c e k k')
    (ht : TemplateShift e seg seg') (resent : UInt32) (n : Nat)
    (hl : Forall₂ (CellShift c) l l') : (∀ s ∈ l, s.cmd = IKCP_CMD_PUSH) → ∀ {x x' : KCP.Xmit},
    XmitShift c e x x' →
    Go.Both (fun r r' => Forall₂ (CellShift c) r.1 r'.1 ∧ XmitShift c e r.2 r'.2)
      (k.resendLoop seg resent n l x) (k'.resendLoop seg' resent n l' x') := by
  induction hl with
  | nil => exact fun _ _ _ hx => ⟨.nil, hx⟩
  | cons hs hq ih =>
    intro hcmd x x' hx
    rw [KCP.resendLoop, KCP.resendLoop]
    refine (resendOne_shift h ht resent n hs (hcmd _ List.mem_cons_self) hx).bind fun p p' hp => ?_
    exact (ih (fun s hs' => hcmd s (List.mem_cons_of_mem _ hs')) hp.2).bind fun r r' hr =>
      ⟨.cons hp.1 hr.1, hr.2⟩

/-! ## The whole of `flush` -/

theorem updateCwnd_shift (h : ShiftOf c e k k') (cwnd resent : UInt32) (change lost : Nat) :
    ShiftOf c e (k.updateCwnd cwnd resent change lost) (k'.updateCwnd cwnd resent change lost) := by
  have halve : ∀ {a a' : KCP}, ShiftOf c e a a' →
      ShiftOf c e (a.halveRate resent change) (a'.halveRate resent change) := by
    rintro a a' ⟨b, hp, q, rfl, hb, hh, hq⟩
    refine Go.rel_ite Iff.rfl (fun _ => ⟨b, hp, q, ?_, hb, hh, hq⟩) fun _ => ⟨b, hp, q, rfl, hb, hh, hq⟩
    simp only [sub_shift]
  have restart : ∀ {a a' : KCP}, ShiftOf c e a a' →
      ShiftOf c e (a.restartRate cwnd lost) (a'.restartRate cwnd lost) := by
    rintro a a' ⟨b, hp, q, rfl, hb, hh, hq⟩
    exact Go.rel_ite Iff.rfl (fun _ => ⟨b, hp, q, rfl, hb, hh, hq⟩) fun _ => ⟨b, hp, q, rfl, hb, hh, hq⟩
  have floor : ∀ {a a' : KCP}, ShiftOf c e a a' → ShiftOf c e a.floorRate a'.floorRate := by
    rintro a a' ⟨b, hp, q, rfl, hb, hh, hq⟩
    exact Go.rel_ite Iff.rfl (fun _ => ⟨b, hp, q, rfl, hb, hh, hq⟩) fun _ => ⟨b, hp, q, rfl, hb, hh, hq⟩
  have hno : k'.nocwnd = k.nocwnd := by
    obtain ⟨b, hp, q, rfl, -⟩ := h
    rfl
  unfold KCP.updateCwnd
  exact Go.rel_ite (by rw [hno]) (fun _ => h) fun _ => floor (restart (halve h))

/-- Only PUSH segments are in the send buffer. -/
def PushOnly (k : KCP) : Prop := ∀ s ∈ k.sndBuf, s.cmd = IKCP_CMD_PUSH

theorem resendBuf_shift (h : ShiftOf c e k k') (hp : PushOnly k) (ft : FlushType)
    (ht : TemplateShift e seg seg') (n : Nat)
    (hx : XmitShift c e x x') :
    Go.Both (fun r r' => Forall₂ (CellShift c) r.1 r'.1 ∧ XmitShift c e r.2 r'.2) (k.resendBuf ft seg n x)
      (k'.resendBuf ft seg' n x') := by
  have hk := h
  obtain ⟨b, hpq, q, rfl, hb, -⟩ := h
  cases ft with
  | ackOnly => exact ⟨hb, hx⟩
  | full => exact resendLoop_shift hk ht k.resentOf n hb hp hx

theorem flushData_shift (h : ShiftOf c e k k') (hp : PushOnly k) (ft : FlushType) (clk : Clock)
    (ht : TemplateShift e seg seg') {n n' : Nat} (hn : n' = n)
    (hw : WriterShift c e w w') :
    Go.Both (fun r r' => ShiftOf c e r.1 r'.1 ∧ Forall₂ (PktShift c e) r.2.1 r'.2.1 ∧ r'.2.2 = r.2.2)
      (k.flushData ft clk seg n w) (k'.flushData ft clk seg' n' w') := by
  subst hn
  have hx : XmitShift c e ⟨clk 0, clk.tail, w, k.state, 0, 0, k.interval⟩
      ⟨clk 0, clk.tail, w', k'.state, 0, 0, k'.interval⟩ := by
    obtain ⟨b, hpq, q, rfl, -⟩ := h
    exact ⟨hw, rfl⟩
  refine (resendBuf_shift h hp ft ht n' hx).bind ?_
  rintro ⟨l, x⟩ ⟨l', x'⟩ ⟨hl, hx'⟩
  obtain ⟨b, hpq, q, rfl, hb, hh, hq⟩ := h
  obtain ⟨hw', hr⟩ := hx'
  dsimp only at hl hw' hr ⊢
  refine Go.Both.ok ⟨?_, finish_shift hw', by rw [hr]⟩
  rw [hr]
  exact updateCwnd_shift (k := { k with sndBuf := l, state := x.state }) ⟨l', hpq, q, rfl, hl, hh, hq⟩ _ _ _ _

theorem PushOnly.fillWindow (h : PushOnly k) (cwnd : UInt32) (q : List Segment) :
    PushOnly (k.fillWindow cwnd q).1 := by
  obtain ⟨m, -, -, he, -⟩ := KCP.fillWindow_spec cwnd q k
  rw [he]
  intro s hs
  rcases List.mem_append.mp hs with hs | hs
  · exact h s hs
  · obtain ⟨t, -, sn, rfl⟩ := numberFrom_mem hs
    rfl

theorem flush_shift (h : ShiftOf c e k k') (hp : PushOnly k) (ft : FlushType) (clk : Clock) :
    Go.Both (fun r r' => ShiftOf c e r.1 r'.1 ∧ Forall₂ (PktShift c e) r.2.1 r'.2.1 ∧ r'.2.2 = r.2.2)
      (k.flush ft clk) (k'.flush ft clk) := by
  have htmpl : TemplateShift e k.template k'.template := by
    obtain ⟨b, hpq, q, rfl, -, -, hq⟩ := h
    refine ⟨?_, rfl⟩
    simp only [KCP.template, KCP.wndUnused, hq.length_eq]
  have hack : k'.acklist = k.acklist.map (AckItem.shift e) := by
    obtain ⟨b, hpq, q, rfl, -⟩ := h
    rfl
  have hclear : ShiftOf c e { k with acklist := [] } { k' with acklist := [] } := by
    obtain ⟨b, hpq, q, rfl, hb, hh, hq⟩ := h
    exact ⟨b, hpq, q, rfl, hb, hh, hq⟩
  obtain ⟨hprobe, hclk⟩ := probeTimer_shift hclear clk
  have hponly : PushOnly (KCP.probeTimer { k with acklist := [] } clk).1 := by
    obtain ⟨a, b, d, he⟩ := KCP.probeTimer_spec { k with acklist := [] } clk
    rw [he]
    exact hp
  unfold KCP.flush
  rw [hack]
  refine (flushAcks_shift h k.acklist htmpl rfl writerShift_empty).bind ?_
  rintro ⟨seg, w⟩ ⟨seg', w'⟩ ⟨ht, hw⟩
  dsimp only at ht hw ⊢
  rw [hclk]
  generalize (KCP.probeTimer { k with acklist := [] } clk).2 = clk₁ at *
  generalize (KCP.probeTimer { k with acklist := [] } clk).1 = k₁ at *
  generalize (KCP.probeTimer { k' with acklist := [] } clk).1 = k₁' at *
  refine (flushProbes_shift hprobe ht hw).bind ?_
  rintro ⟨seg₂, w₂⟩ ⟨seg₂', w₂'⟩ ⟨ht₂, hw₂⟩
  dsimp only at ht₂ hw₂ ⊢
  obtain ⟨b, hpq, q, rfl, hb, hh, hq⟩ := hprobe
  obtain ⟨hadm, hn⟩ := fillWindow_shift (k := { k₁ with probe := 0 }) k₁.sendWindow k₁.sndQueue
    ⟨b, hpq, q, rfl, hb, hh, hq⟩
  exact flushData_shift hadm (PushOnly.fillWindow (k := { k₁ with probe := 0 }) hponly _ _) ft clk₁ ht₂ hn hw₂

/-! ## `Input` -/

theorem updateAck_shift (h : ShiftOf c e k k') (rtt : Int32) :
    ShiftOf c e (k.updateAck rtt) (k'.updateAck rtt) := by
  have bound : ∀ {a a' : KCP}, ShiftOf c e a a' → ShiftOf c e a.boundRto a'.boundRto := by
    rintro a a' ⟨b, hp, q, rfl, hb, hh, hq⟩
    exact ⟨b, hp, q, rfl, hb, hh, hq⟩
  obtain ⟨b, hp, q, rfl, hb, hh, hq⟩ := h
  exact bound (Go.rel_ite Iff.rfl (fun _ => ⟨b, hp, q, rfl, hb, hh, hq⟩) fun _ => ⟨b, hp, q, rfl, hb, hh, hq⟩)

theorem sampleRtt_shift {st st' : InLoop} (h : LoopShift c e st st') (pkt : PacketType) (clk : Clock) :
    ShiftOf c e (KCP.sampleRtt pkt st clk).1 (KCP.sampleRtt pkt st' clk).1 ∧
      (KCP.sampleRtt pkt st' clk).2 = (KCP.sampleRtt pkt st clk).2 := by
  unfold KCP.sampleRtt
  rw [h.updateRTT, h.latest]
  refine Go.rel_ite (r := fun (x y : KCP × Clock) => ShiftOf c e x.1 y.1 ∧ y.2 = x.2) Iff.rfl
    (fun _ => ⟨?_, rfl⟩) fun _ => ⟨h.k, rfl⟩
  exact Go.rel_ite Iff.rfl (fun _ => updateAck_shift h.k _) fun _ => h.k

theorem growRate_shift (h : ShiftOf c e k k') :
    Go.Both (ShiftOf c e) k.growRate k'.growRate := by
  obtain ⟨b, hp, q, rfl, hb, hh, hq⟩ := h
  refine Go.rel_ite Iff.rfl (fun _ => Go.Both.ok ⟨b, hp, q, rfl, hb, hh, hq⟩) fun _ => ?_
  exact Go.rel_ite Iff.rfl (fun _ => rfl) fun _ => Go.Both.ok ⟨b, hp, q, rfl, hb, hh, hq⟩

theorem growCwnd_shift (h : ShiftOf c e k k') (una : UInt32) :
    Go.Both (ShiftOf c e) (k.growCwnd una) (k'.growCwnd (una + c)) := by
  have cap : ∀ {a a' : KCP}, ShiftOf c e a a' → ShiftOf c e a.capRate a'.capRate := by
    rintro a a' ⟨b, hp, q, rfl, hb, hh, hq⟩
    exact Go.rel_ite Iff.rfl (fun _ => ⟨b, hp, q, rfl, hb, hh, hq⟩) fun _ => ⟨b, hp, q, rfl, hb, hh, hq⟩
  have htest : (k'.nocwnd = 0 ∧ 0 < itimediff k'.sndUna (una + c) ∧ k'.cwnd < k'.rmtWnd) ↔
      (k.nocwnd = 0 ∧ 0 < itimediff k.sndUna una ∧ k.cwnd < k.rmtWnd) := by
    obtain ⟨b, hp, q, rfl, -⟩ := h
    simp only [itimediff_shift]
  unfold KCP.growCwnd
  exact Go.rel_ite htest (fun _ => (growRate_shift h).bind fun _ _ h' => cap h') fun _ => h

theorem inputBody_shift (h : ShiftOf c e k k') (data : Bytes) (pkt : PacketType) (clk : Clock) :
    Go.Both (fun r r' => ShiftOf c e r.1 r'.1 ∧ r'.2 = r.2) (k.inputBody data pkt clk)
      (k'.inputBody (shiftPacket c e data) pkt clk) := by
  have huna : k'.sndUna = k.sndUna + c := by
    obtain ⟨b, hp, q, rfl, -⟩ := h
    rfl
  have hst : LoopShift c e ⟨k, 0, false, false⟩ ⟨k', 0, false, false⟩ := ⟨h, rfl, rfl, rfl⟩
  unfold KCP.inputBody shiftPacket
  rw [shiftIn_length, huna]
  refine Go.rel_ite Iff.rfl (fun _ => ⟨h, rfl⟩) fun _ => ?_
  refine (inputLoop_shift pkt data.length data hst).bind ?_
  rintro ⟨st, ret⟩ ⟨st', ret'⟩ ⟨hst, hret⟩
  dsimp only at hst hret
  subst hret
  cases ret' with
  | some r => exact ⟨hst.k, by dsimp only; rw [hst.flushSegments]⟩
  | none =>
    obtain ⟨hs, hclk⟩ := sampleRtt_shift hst pkt clk
    dsimp only
    refine (growCwnd_shift hs k.sndUna).bind fun a a' ha => Go.Both.ok ⟨ha, ?_⟩
    rw [hclk, hst.flushSegments]

theorem PushOnly.of_snd {e : KCP} (h : PushOnly k)
    (hs : ∀ s ∈ e.snd.buf, s.cmd = IKCP_CMD_PUSH ∨ ∃ t ∈ k.snd.buf, s.cmd = t.cmd) :
    PushOnly e := by
  intro s hs'
  have hcore : ∀ t ∈ k.snd.buf, t.cmd = IKCP_CMD_PUSH := by
    intro t ht
    obtain ⟨x, hx, rfl⟩ := List.mem_map.mp ht
    exact h x hx
  rcases hs s.core (List.mem_map_of_mem hs') with hp | ⟨t, ht, he⟩
  · exact hp
  · exact he.trans (hcore t ht)

theorem PushOnly.segSpec {pkt : PacketType} {hd : Header} {payload : Bytes}
    (hs : KCP.SegSpec pkt hd payload k k') (h : PushOnly k) : PushOnly k' := by
  refine h.of_snd fun s hm => .inr ?_
  rw [hs.snd] at hm
  have hhead : ∀ s ∈ (k.snd.head (KCP.wndOf pkt hd) hd.una).buf, ∃ t ∈ k.snd.buf, s.cmd = t.cmd :=
    fun s hs => ⟨s, List.mem_of_mem_drop hs, rfl⟩
  split at hm
  · unfold Snd.ack at hm
    split at hm
    · exact hhead s hm
    · obtain ⟨i, hi⟩ := List.getElem?_of_mem hm
      obtain ⟨t, ht, hc⟩ := Snd.markAcked_get hi
      obtain ⟨t', ht', he⟩ := hhead t (List.mem_of_getElem? ht)
      refine ⟨t', ht', ?_⟩
      rcases hc with rfl | ⟨-, rfl⟩
      · exact he
      · exact he
  · exact hhead s hm

theorem PushOnly.inputBody {e : KCP} {data : Bytes} {pkt : PacketType} {clk clk' : Clock} {ret : Option Int}
    {fl : Bool} (hb : k.inputBody data pkt clk = .ok (e, ret, fl, clk')) (h : PushOnly k) : PushOnly e := by
  rcases KCP.inputBody_spec hb with ⟨-, rfl, -⟩ | ⟨-, st, hl, hsame, -⟩
  · exact h
  · have hst := KCP.inputLoop_keeps (P := PushOnly) (fun _ _ _ _ _ hs hp => hp.segSpec hs) hl h
    exact hst.of_snd fun s hs => .inr ⟨s, hsame.snd ▸ hs, rfl⟩

theorem input_shift (h : ShiftOf c e k k') (hp : PushOnly k) (data : Bytes) (pkt : PacketType)
    (nd : Bool) (clk : Clock) :
    Go.Both (fun r r' => ShiftOf c e r.1 r'.1 ∧ r'.2.1 = r.2.1 ∧ Forall₂ (PktShift c e) r.2.2 r'.2.2)
      (k.input data pkt nd clk) (k'.input (shiftPacket c e data) pkt nd clk) := by
  refine (inputBody_shift h data pkt clk).bind_of_ok ?_
  rintro ⟨k₁, ret, fl, clk₁⟩ ⟨k₁', ret', fl', clk₁'⟩ hb ⟨hk, hrest⟩
  dsimp only at hk hrest
  cases hrest
  have hp₁ := hp.inputBody hb
  have hwant : k₁'.flushWanted fl nd = k₁.flushWanted fl nd := by
    obtain ⟨b, hpq, q, rfl, -⟩ := hk
    simp only [KCP.flushWanted, List.length_map, ne_eq, List.map_eq_nil_iff]
  cases ret with
  | some r => exact ⟨hk, rfl, .nil⟩
  | none =>
    dsimp only
    rw [hwant]
    cases k₁.flushWanted fl nd with
    | none => exact ⟨hk, rfl, .nil⟩
    | some ft =>
      refine (flush_shift hk hp₁ ft clk₁).bind ?_
      rintro ⟨a, o, nx⟩ ⟨a', o', nx'⟩ ⟨ha, ho, -⟩
      exact ⟨ha, rfl, ho⟩

/-! ## The other operations -/

theorem sendFresh_shift (h : ShiftOf c e k k') (buffer : Bytes) :
    Go.Both (fun p p' => ShiftOf c e p.1 p'.1 ∧ p'.2 = p.2) (k.sendFresh buffer) (k'.sendFresh buffer) := by
  have hk := h
  obtain ⟨b, hp, q, rfl, hb, hh, hq⟩ := h
  unfold KCP.sendFresh
  refine (Go.Both.refl _).bind ?_
  rintro n _ rfl
  refine Go.rel_ite Iff.rfl (fun _ => ⟨hk, rfl⟩) fun _ => (Go.Both.refl _).bind ?_
  rintro segs _ rfl
  exact Go.Both.ok ⟨⟨b, hp, q, rfl, hb, hh, hq⟩, rfl⟩

theorem send_shift (h : ShiftOf c e k k') (buffer : Bytes) :
    Go.Both (fun p p' => ShiftOf c e p.1 p'.1 ∧ p'.2 = p.2) (k.send buffer) (k'.send buffer) := by
  have hk := h
  obtain ⟨b, hp, q, rfl, hb, hh, hq⟩ := h
  unfold KCP.send
  refine Go.rel_ite Iff.rfl (fun _ => ⟨hk, rfl⟩) fun _ => Go.rel_ite Iff.rfl (fun _ => sendFresh_shift hk buffer)
    fun _ => (Go.Both.refl _).bind ?_
  rintro ⟨l, left⟩ _ rfl
  have hk' : ShiftOf c e { k with sndQueue := l } _ := ⟨b, hp, q, rfl, hb, hh, hq⟩
  exact Go.rel_ite Iff.rfl (fun _ => ⟨hk', rfl⟩) fun _ => sendFresh_shift hk' left

theorem messageSize_shift (h : Forall₂ (CellShift e) l l') :
    KCP.messageSize l' = KCP.messageSize l := by
  induction h with
  | nil => rfl
  | cons hs _ ih => rw [KCP.messageSize, KCP.messageSize, hs.frg, hs.len, ih]

theorem peekSize_shift (h : ShiftOf c e k k') : k'.peekSize = k.peekSize := by
  obtain ⟨b, hp, q, rfl, -, -, hq⟩ := h
  have hsize := messageSize_shift hq
  have hlen := hq.length_eq
  unfold KCP.peekSize
  dsimp only
  rw [hsize, ← hlen]
  generalize k.rcvQueue = l at hq
  cases hq with
  | nil => rfl
  | cons hs _ => simp only [hs.frg, hs.len]

theorem mergeFragments_shift (h : Forall₂ (CellShift e) l l') : ∀ (room : Nat),
    Go.Both (fun p p' => p'.1 = p.1 ∧ Forall₂ (CellShift e) p.2 p'.2) (KCP.mergeFragments room l)
      (KCP.mergeFragments room l') := by
  induction h with
  | nil => exact fun _ => ⟨rfl, .nil⟩
  | cons hs hq ih =>
    intro room
    rw [KCP.mergeFragments, KCP.mergeFragments, hs.len, hs.frg, hs.bytes]
    refine Go.rel_ite Iff.rfl (fun _ => rfl) fun _ => Go.rel_ite Iff.rfl (fun _ => ⟨rfl, hq⟩) fun _ =>
      (ih _).bind ?_
    rintro ⟨d, r⟩ ⟨d', r'⟩ ⟨rfl, hr⟩
    exact Go.Both.ok ⟨rfl, hr⟩

theorem recv_shift (h : ShiftOf c e k k') (room : Nat) :
    Go.Both (fun p p' => ShiftOf c e p.1 p'.1 ∧ p'.2 = p.2) (k.recv room) (k'.recv room) := by
  have hpeek := peekSize_shift h
  have hk := h
  obtain ⟨b, hp, q, rfl, hb, hh, hq⟩ := h
  unfold KCP.recv
  rw [hpeek]
  refine Go.rel_ite Iff.rfl (fun _ => ⟨hk, rfl⟩) fun _ => Go.rel_ite Iff.rfl (fun _ => ⟨hk, rfl⟩) fun _ =>
    (mergeFragments_shift hq room).bind ?_
  rintro ⟨d, r⟩ ⟨d', r'⟩ ⟨rfl, hr⟩
  have hmove := moveAll_shift (k := { k with rcvQueue := r }) ⟨b, hp, r', rfl, hb, hh, hr⟩
  dsimp only
  generalize KCP.moveAll { k with rcvQueue := r } = m at hmove ⊢
  obtain ⟨b₁, hp₁, q₁, heq, hb₁, hh₁, hq₁⟩ := hmove
  rw [heq, ← hq.length_eq]
  refine Go.Both.ok ⟨Go.rel_ite ?_ (fun _ => ⟨b₁, hp₁, q₁, rfl, hb₁, hh₁, hq₁⟩)
    fun _ => ⟨b₁, hp₁, q₁, rfl, hb₁, hh₁, hq₁⟩, rfl⟩
  rw [hq₁.length_eq]

theorem segRoom_shift (h : Forall₂ (CellShift c) l l') (size : Int) :
    KCP.segRoom l' size = KCP.segRoom l size := by
  unfold KCP.segRoom
  induction h generalizing size with
  | nil => rfl
  | cons hs _ ih => rw [List.foldl_cons, List.foldl_cons, hs.len, ih]

theorem setMtu_shift (h : ShiftOf c e k k') (mtu : Int) :
    Go.Both (fun p p' => ShiftOf c e p.1 p'.1 ∧ p'.2 = p.2) (k.setMtu mtu) (k'.setMtu mtu) := by
  have hk := h
  obtain ⟨b, hp, q, rfl, hb, hh, hq⟩ := h
  unfold KCP.setMtu
  dsimp only
  rw [segRoom_shift hb]
  exact Go.rel_ite Iff.rfl (fun _ => ⟨hk, rfl⟩) fun _ => Go.rel_ite Iff.rfl (fun _ => rfl) fun _ =>
    Go.Both.ok ⟨⟨b, hp, q, rfl, hb, hh, hq⟩, rfl⟩

theorem resetRTO_shift (h : ShiftOf c e k k') (clk : Clock) :
    ShiftOf c e (k.resetRTO clk) (k'.resetRTO clk) := by
  obtain ⟨b, hp, q, rfl, hb, hh, hq⟩ := h
  refine ⟨_, hp, q, rfl, ?_, hh, hq⟩
  simp only [KCP.resetRTO, forall₂_map_left_iff, forall₂_map_right_iff]
  refine hb.imp fun s s' hs => ?_
  unfold CellShift
  rw [hs]

theorem noDelay_shift (h : ShiftOf c e k k') (a b i d : Int) :
    ShiftOf c e (k.noDelay a b i d) (k'.noDelay a b i d) := by
  obtain ⟨l, hp, q, rfl, hb, hh, hq⟩ := h
  unfold KCP.noDelay
  dsimp only
  by_cases h1 : a < 0 <;> by_cases h2 : b < 0 <;> by_cases h3 : i < 0 <;> by_cases h4 : d < 0 <;>
    simp only [h1, h2, h3, h4, if_true, if_false] <;> exact ⟨l, hp, q, rfl, hb, hh, hq⟩

theorem wndSize_shift (h : ShiftOf c e k k') (a b : Int) :
    ShiftOf c e (k.wndSize a b) (k'.wndSize a b) := by
  obtain ⟨l, hp, q, rfl, hb, hh, hq⟩ := h
  unfold KCP.wndSize
  dsimp only
  by_cases h1 : 0 < a <;> by_cases h2 : 0 < b <;> simp only [h1, h2, if_true, if_false] <;>
    exact ⟨l, hp, q, rfl, hb, hh, hq⟩

theorem updateTimer_shift (h : ShiftOf c e k k') (now : UInt32) :
    ShiftOf c e (k.updateTimer now).1 (k'.updateTimer now).1 ∧
      (k'.updateTimer now).2 = (k.updateTimer now).2 := by
  have start : ∀ {a a' : KCP}, ShiftOf c e a a' → ShiftOf c e (a.startTimer now) (a'.startTimer now) := by
    rintro a a' ⟨b, hp, q, rfl, hb, hh, hq⟩
    exact Go.rel_ite Iff.rfl (fun _ => ⟨b, hp, q, rfl, hb, hh, hq⟩) fun _ => ⟨b, hp, q, rfl, hb, hh, hq⟩
  have sync : ∀ {a a' : KCP}, ShiftOf c e a a' → ShiftOf c e (a.resync now) (a'.resync now) := by
    rintro a a' ⟨b, hp, q, rfl, hb, hh, hq⟩
    exact Go.rel_ite Iff.rfl (fun _ => ⟨b, hp, q, rfl, hb, hh, hq⟩) fun _ => ⟨b, hp, q, rfl, hb, hh, hq⟩
  have expire : ∀ {a a' : KCP}, ShiftOf c e a a' →
      ShiftOf c e (a.expire now).1 (a'.expire now).1 ∧ (a'.expire now).2 = (a.expire now).2 := by
    rintro a a' ⟨b, hp, q, rfl, hb, hh, hq⟩
    exact Go.rel_ite (r := fun (x y : KCP × Bool) => ShiftOf c e x.1 y.1 ∧ y.2 = x.2) Iff.rfl
      (fun _ => ⟨⟨b, hp, q, rfl, hb, hh, hq⟩, rfl⟩) fun _ => ⟨⟨b, hp, q, rfl, hb, hh, hq⟩, rfl⟩
  exact expire (sync (start h))

theorem update_shift (h : ShiftOf c e k k') (hp : PushOnly k) (clk : Clock) :
    Go.Both (fun p p' => ShiftOf c e p.1 p'.1 ∧ Forall₂ (PktShift c e) p.2 p'.2) (k.update clk)
      (k'.update clk) := by
  obtain ⟨ht, hf⟩ := updateTimer_shift h (clk 0)
  have hp' : PushOnly (k.updateTimer (clk 0)).1 :=
    hp.of_snd fun s hs => .inr ⟨s, (updateTimer_same k (clk 0)).snd ▸ hs, rfl⟩
  unfold KCP.update
  rw [hf]
  refine Go.rel_ite Iff.rfl (fun _ => (flush_shift ht hp' .full clk.tail).bind ?_) fun _ => ⟨ht, .nil⟩
  rintro ⟨a, o, nx⟩ ⟨a', o', nx'⟩ ⟨ha, ho, -⟩
  exact Go.Both.ok ⟨ha, ho⟩

theorem nextPacket_shift (h : Forall₂ (CellShift c) l l') (now : UInt32) (tm : Int32) :
    KCP.nextPacket now l' tm = KCP.nextPacket now l tm := by
  induction h generalizing tm with
  | nil => rfl
  | cons hs _ ih => rw [KCP.nextPacket, KCP.nextPacket, hs.resendts, ih]

theorem check_shift (h : ShiftOf c e k k') (now : UInt32) : k'.check now = k.check now := by
  obtain ⟨b, hp, q, rfl, hb, -⟩ := h
  unfold KCP.check
  dsimp only
  rw [nextPacket_shift hb]

/-! ## Operations and runs -/

/-- The operation with the numbers of an incoming packet shifted. -/
def shiftOp (c e : UInt32) : Op → Op
  | .input data pkt nd clk => .input (shiftPacket c e data) pkt nd clk
  | op => op

structure OutShift (c e : UInt32) (o o' : Out) : Prop where
  ret : o'.ret = o.ret
  data : o'.data = o.data
  pkts : Forall₂ (PktShift c e) o.pkts o'.pkts

/-- The two runs agree on one operation. -/
def StepShift (c e : UInt32) : Go (KCP × Out) → Go (KCP × Out) → Prop :=
  Go.Both fun r r' => ShiftOf c e r.1 r'.1 ∧ OutShift c e r.2 r'.2

theorem step_shift (h : ShiftOf c e k k') (hp : PushOnly k) (op : Op) :
    StepShift c e (step k op) (step k' (shiftOp c e op)) := by
  cases op with
  | send buffer =>
    refine (send_shift h buffer).bind ?_
    rintro ⟨a, r⟩ ⟨a', r'⟩ ⟨ha, rfl⟩
    exact ⟨ha, rfl, rfl, .nil⟩
  | recv room =>
    refine (recv_shift h room).bind ?_
    rintro ⟨a, r, d⟩ ⟨a', r', d'⟩ ⟨ha, hrest⟩
    cases hrest
    exact ⟨ha, rfl, rfl, .nil⟩
  | peekSize => exact ⟨h, peekSize_shift h, rfl, .nil⟩
  | flush ft clk =>
    refine (flush_shift h hp ft clk).bind ?_
    rintro ⟨a, o, nx⟩ ⟨a', o', nx'⟩ ⟨ha, ho, rfl⟩
    exact ⟨ha, rfl, rfl, ho⟩
  | input data pkt nd clk =>
    refine (input_shift h hp data pkt nd clk).bind ?_
    rintro ⟨a, r, o⟩ ⟨a', r', o'⟩ ⟨ha, rfl, ho⟩
    exact ⟨ha, rfl, rfl, ho⟩
  | noDelay a b i d => exact ⟨noDelay_shift h a b i d, rfl, rfl, .nil⟩
  | wndSize a b => exact ⟨wndSize_shift h a b, rfl, rfl, .nil⟩
  | setMtu mtu =>
    refine (setMtu_shift h mtu).bind ?_
    rintro ⟨a, r⟩ ⟨a', r'⟩ ⟨ha, rfl⟩
    exact ⟨ha, rfl, rfl, .nil⟩
  | setStream on =>
    obtain ⟨b, hpq, q, rfl, hb, hh, hq⟩ := h
    exact ⟨⟨b, hpq, q, rfl, hb, hh, hq⟩, rfl, rfl, .nil⟩
  | resetRTO clk => exact ⟨resetRTO_shift h clk, rfl, rfl, .nil⟩
  | waitSnd =>
    refine ⟨h, ?_, rfl, .nil⟩
    obtain ⟨b, hpq, q, rfl, hb, -⟩ := h
    simp only [KCP.waitSnd, hb.length_eq]
  | update clk =>
    refine (update_shift h hp clk).bind ?_
    rintro ⟨a, o⟩ ⟨a', o'⟩ ⟨ha, ho⟩
    exact ⟨ha, rfl, rfl, ho⟩
  | check now => exact ⟨h, by dsimp only; rw [check_shift h], rfl, .nil⟩

theorem PushOnly.step {op : Op} {o : Out} (h : L2.step k op = .ok (k', o)) (hp : PushOnly k) :
    PushOnly k' := by
  have same : ∀ {a b : KCP}, b.snd.buf = a.snd.buf → PushOnly a → PushOnly b :=
    fun hb ha => ha.of_snd fun s hs => .inr ⟨s, hb ▸ hs, rfl⟩
  obtain ⟨e, hb, hcase⟩ := step_split h
  have he : PushOnly e := by
    cases hb with
    | send h =>
      obtain ⟨q, rfl, -⟩ := KCP.send_spec h
      exact hp
    | recv h => exact same (congrArg Snd.buf (KCP.recv_rest h).1) hp
    | input h => exact hp.inputBody h
    | wndSize a b => exact same (congrArg Snd.buf (KCP.wndSize_rest k a b).1) hp
    | noDelay a b i d => exact same (congrArg Snd.buf (KCP.noDelay_rest k a b i d).2.1) hp
    | setMtu h => exact same (congrArg Snd.buf (KCP.setMtu_rest h).2.1) hp
    | setStream on => exact hp
    | idle _ h => exact same (congrArg Snd.buf h.snd) hp
  rcases hcase with ⟨rfl, -, -⟩ | ⟨-, ft, clk, nx, hf⟩
  · exact he
  · obtain ⟨m, hm⟩ := KCP.flush_spec hf
    refine he.of_snd fun s hs => ?_
    rw [hm.snd] at hs
    rcases List.mem_append.mp hs with hs | hs
    · exact .inr ⟨s, hs, rfl⟩
    · obtain ⟨t, ht, rfl⟩ := List.mem_map.mp hs
      obtain ⟨q, -, sn, rfl⟩ := numberFrom_mem ht
      exact .inl rfl

/-- The results of a sequence of operations, up to the first panic. -/
def trace : KCP → List Op → List (Go (KCP × Out))
  | _, [] => []
  | k, op :: ops => step k op :: match step k op with
    | .ok (k', _) => trace k' ops
    | .error _ => []

/-- The state with all its sequence numbers shifted. -/
def KCP.shift (c e : UInt32) (k : KCP) : KCP :=
  { k with sndUna := k.sndUna + c
           sndNxt := k.sndNxt + c
           rcvNxt := k.rcvNxt + e
           acklist := k.acklist.map (AckItem.shift e)
           sndBuf := k.sndBuf.map fun s => { s with sn := s.sn + c }
           rcvBuf := ⟨k.rcvBuf.segments.map fun s => { s with sn := s.sn + e }, k.rcvBuf.marks.image (· + e)⟩
           rcvQueue := k.rcvQueue.map fun s => { s with sn := s.sn + e } }

theorem shiftOf_shift (c e : UInt32) (k : KCP) : ShiftOf c e k (k.shift c e) := by
  have hmap : ∀ (d : UInt32) (l : List Segment),
      Forall₂ (CellShift d) l (l.map fun s => { s with sn := s.sn + d }) := by
    intro d l
    rw [forall₂_map_right_iff, forall₂_same]
    exact fun s _ => rfl
  exact ⟨_, _, _, rfl, hmap c _, ⟨hmap e _, rfl⟩, hmap e _⟩

theorem trace_shift (ops : List Op) : ∀ {k k' : KCP}, ShiftOf c e k k' → PushOnly k →
    Forall₂ (StepShift c e) (trace k ops) (trace k' (ops.map (shiftOp c e))) := by
  induction ops with
  | nil => exact fun _ _ => .nil
  | cons op ops ih =>
    intro k k' h hp
    have hstep := step_shift h hp op
    rw [List.map_cons, trace, trace]
    refine .cons hstep ?_
    cases hs : step k op with
    | error p =>
      rw [hs] at hstep
      cases hs' : step k' (shiftOp c e op) with
      | error p' => exact .nil
      | ok r' => rw [hs'] at hstep; exact False.elim hstep
    | ok r =>
      rw [hs] at hstep
      cases hs' : step k' (shiftOp c e op) with
      | error p' => rw [hs'] at hstep; exact False.elim hstep
      | ok r' =>
        rw [hs'] at hstep
        exact ih hstep.1 (hp.step hs)

/-- `snd_buf` holds PUSH segments only in every state the code reaches. -/
theorem pushOnly_reachable (conv : UInt32) (k : KCP) (hr : (machine conv).Reachable k) : PushOnly k := by
  intro s hs
  exact (((sndOk_inductive conv).reachable k hr).cells s.core (List.mem_map_of_mem hs)).cmd

/-- **Sequence-shift invariance.** From a shifted state, on shifted packets,
every sequence of operations gives the same run: equal return values, bytes,
timers, windows and congestion state, and packets equal up to the shifts. -/
theorem shift_run (c e : UInt32) (k : KCP) (hp : PushOnly k) (ops : List Op) :
    Forall₂ (StepShift c e) (trace k ops) (trace (k.shift c e) (ops.map (shiftOp c e))) :=
  trace_shift ops (shiftOf_shift c e k) hp

/-- A run whose numbers wrap in the shifted copy. -/
theorem shift_run_wrapping :
    Forall₂ (StepShift 0xFFFFFFFF 0xFFFFFFFE) (trace (newKCP 7) windowRun)
      (trace ((newKCP 7).shift 0xFFFFFFFF 0xFFFFFFFE) (windowRun.map (shiftOp 0xFFFFFFFF 0xFFFFFFFE))) ∧
    (trace (newKCP 7) windowRun).length = 5 := by
  refine ⟨shift_run 0xFFFFFFFF 0xFFFFFFFE (newKCP 7) ?_ windowRun, by decide +kernel⟩
  intro s hs
  cases hs

end KcpGo.L2
