import KcpGo.L2Machine.FlushSpec

/-!
# What a flush writes, and how it is cut into packets

`pending k ft clk` are the segments a flush from `k` has to send, in order:
the ACKs left by the filter, the probes, the segments of `snd_buf` that are
due. `flush_packets`: its packets, one after the other, are exactly these,
each a run of whole segments; one that is longer than the MTU is a segment
alone.
-/
namespace KcpGo.L2

open KcpGo.L1

/-! ## The segments to send -/

namespace KCP

/-- The ACKs phase 1 writes: those the peer may still need, and the last one. -/
def pendingAcks (rcvNxt : UInt32) : List AckItem → List AckItem
  | [] => []
  | ack :: rest =>
    if 0 ≤ itimediff ack.sn rcvNxt ∨ rest = [] then ack :: pendingAcks rcvNxt rest else pendingAcks rcvNxt rest

def ackSeg (seg : Segment) (ack : AckItem) : Segment := { seg with sn := ack.sn, ts := ack.ts }

def ackSegs (k : KCP) : List Segment := (pendingAcks k.rcvNxt k.acklist).map (ackSeg k.template)

/-- The header template after phase 1: it keeps the `sn` and `ts` of the last
ACK. -/
def probeSeg (k : KCP) : Segment := k.ackSegs.getLast?.getD k.template

/-- The segments of phase 3. -/
def probeSegs (k : KCP) (clk : Clock) : List Segment :=
  (if (probeTimer k clk).1.probe &&& IKCP_ASK_SEND ≠ 0 then [{ k.probeSeg with cmd := IKCP_CMD_WASK }] else []) ++
    (if (probeTimer k clk).1.probe &&& IKCP_ASK_TELL ≠ 0 then [{ k.probeSeg with cmd := IKCP_CMD_WINS }] else [])

/-- `s` as it goes out at the time `now`, having been found due at `current`. -/
def sentAs (k : KCP) (seg : Segment) (r : Reason) (current now : UInt32) (s : Segment) : Segment :=
  { rearm k current s r with xmit := s.xmit + 1, ts := now, wnd := seg.wnd, una := seg.una }

/-- The segments of `snd_buf` that are due, in its order. The clock is read
again for each of them. -/
def duePushes (k : KCP) (seg : Segment) (resent : UInt32) (newSegs : Nat) : List Segment → UInt32 → Clock → List Segment
  | [], _, _ => []
  | s :: q, current, clk =>
    if s.acked = 1 then duePushes k seg resent newSegs q current clk
    else match reason resent newSegs current s with
      | none => duePushes k seg resent newSegs q current clk
      | some r => sentAs k seg r current (clk 0) s :: duePushes k seg resent newSegs q (clk 0) clk.tail

/-- The state after phase 4, the number of segments that entered `snd_buf`,
and the clock. -/
def filled (k : KCP) (clk : Clock) : KCP × Nat × Clock :=
  let (k, clk) := probeTimer { k with acklist := [] } clk
  let (k, newSegs) := fillWindow k.sendWindow { k with probe := 0 } k.sndQueue
  (k, newSegs, clk)

/-- The segments of phase 5 from the state after phase 4. -/
def dueSegs (k : KCP) (seg : Segment) (newSegs : Nat) : FlushType → Clock → List Segment
  | .full, clk => duePushes k seg k.resentOf newSegs k.sndBuf (clk 0) clk.tail
  | .ackOnly, _ => []

def pushSegs (k : KCP) (ft : FlushType) (clk : Clock) : List Segment :=
  dueSegs (k.filled clk).1 k.template (k.filled clk).2.1 ft (k.filled clk).2.2

/-- Everything a flush has to send. -/
def pending (k : KCP) (ft : FlushType) (clk : Clock) : List Segment := k.ackSegs ++ k.probeSegs clk ++ k.pushSegs ft clk

end KCP

/-! ## Cutting into packets -/

theorem encodeAll_eq_nil {ps : List Segment} : encodeAll ps = [] ↔ ps = [] := by
  constructor
  · intro h
    have hle := encodeAll_length_ge ps
    rw [h, List.length_nil] at hle
    exact List.eq_nil_of_length_eq_zero (by omega)
  · intro h
    rw [h]
    rfl

/-- A packet of at most `mtu` bytes, or a segment alone. -/
def Fitting (mtu : Nat) (ps : List Segment) : Prop := (encodeAll ps).length ≤ mtu ∨ ∃ s, ps = [s]

namespace Writer

/-- The packets `pss` are out, and `cs` is in the next one. -/
structure Holds (mtu : UInt32) (pss : List (List Segment)) (cs : List Segment) (w : Writer) : Prop where
  out : w.out = pss.map encodeAll
  cur : w.cur = encodeAll cs
  fits : ∀ ps ∈ pss, Fitting mtu.toNat ps
  fit : Fitting mtu.toNat cs

/-- The segments `ws` have been written. -/
def Wrote (mtu : UInt32) (ws : List Segment) (w : Writer) : Prop :=
  ∃ pss cs, w.Holds mtu pss cs ∧ pss.flatten ++ cs = ws

variable {mtu : UInt32} {ws : List Segment} {w w' w'' : Writer}

theorem wrote_nil (mtu : UInt32) : Wrote mtu [] ⟨[], []⟩ :=
  ⟨[], [], ⟨rfl, rfl, by simp, .inl (Nat.zero_le _)⟩, rfl⟩

/-- After `makeSpace` the packet is new, or there is room in it. -/
theorem Wrote.makeSpace (h : w.Wrote mtu ws) (n : Nat) : ∃ pss cs, (w.makeSpace mtu n).Holds mtu pss cs ∧
    pss.flatten ++ cs = ws ∧ (cs = [] ∨ (encodeAll cs).length + n ≤ mtu.toNat) := by
  obtain ⟨pss, cs, hh, hws⟩ := h
  unfold Writer.makeSpace
  split
  · refine ⟨pss ++ [cs], [], ⟨?_, rfl, ?_, .inl (Nat.zero_le _)⟩, ?_, .inl rfl⟩
    · simp [hh.out, hh.cur]
    · intro ps hps
      rcases List.mem_append.mp hps with hps | hps
      · exact hh.fits ps hps
      · rw [List.mem_singleton.mp hps]
        exact hh.fit
    · simp [hws]
  · rename_i hroom
    rw [hh.cur] at hroom
    exact ⟨pss, cs, hh, hws, .inr (Nat.not_lt.mp hroom)⟩

theorem Wrote.space (h : w.Wrote mtu ws) (n : Nat) : (w.makeSpace mtu n).Wrote mtu ws := by
  obtain ⟨pss, cs, hh, hws, -⟩ := h.makeSpace n
  exact ⟨pss, cs, hh, hws⟩

/-- One more segment, after space has been made for it. -/
theorem Wrote.put (h : w.Wrote mtu ws) {s : Segment} {n : Nat} (hn : n = s.wire.length)
    (hw : w' = { w.makeSpace mtu n with cur := (w.makeSpace mtu n).cur ++ s.wire }) : w'.Wrote mtu (ws ++ [s]) := by
  obtain ⟨pss, cs, hh, hws, hroom⟩ := h.makeSpace n
  subst hw
  refine ⟨pss, cs ++ [s], ⟨hh.out, ?_, hh.fits, ?_⟩, ?_⟩
  · simp [hh.cur]
  · rcases hroom with rfl | hroom
    · exact .inr ⟨s, rfl⟩
    · left
      rw [encodeAll_append, List.length_append]
      simpa [hn] using hroom
  · rw [← List.append_assoc, hws]

/-- A header alone. -/
theorem Wrote.encode (h : w.Wrote mtu ws) {bufLen : Nat} {s : Segment} (hd : s.data = none)
    (he : (w.makeSpace mtu IKCP_OVERHEAD).encode bufLen s = .ok w') : w'.Wrote mtu (ws ++ [s]) := by
  have hwire : s.wire = s.header := by simp [Segment.wire, Segment.bytes, hd]
  unfold Writer.encode at he
  split at he
  · cases he
  · cases he
    refine h.put (n := IKCP_OVERHEAD) ?_ ?_
    · simp [hwire, IKCP_OVERHEAD]
    · rw [hwire]

/-- A header and its payload. -/
theorem Wrote.write (h : w.Wrote mtu ws) {bufLen : Nat} {s : Segment}
    (he : (w.makeSpace mtu (IKCP_OVERHEAD + s.len)).encode bufLen s = .ok w')
    (hc : w'.copyData bufLen s.bytes = .ok w'') :
    w''.Wrote mtu (ws ++ [s]) := by
  unfold Writer.encode at he
  unfold Writer.copyData at hc
  split at he
  · cases he
  split at hc
  · cases hc
  cases he
  cases hc
  refine h.put (n := IKCP_OVERHEAD + s.len) ?_ ?_
  · rw [Segment.wire_length]
    rfl
  · simp [Segment.wire]

/-- The packets of non-zero size. -/
theorem Wrote.finish (h : w.Wrote mtu ws) :
    ∃ pss : List (List Segment), w.finish.filter (· ≠ []) = pss.map encodeAll ∧ pss.flatten = ws ∧
    ∀ ps ∈ pss, Fitting mtu.toNat ps := by
  obtain ⟨pss, cs, hh, hws⟩ := h
  refine ⟨(pss ++ [cs]).filter (· ≠ []), ?_, ?_, ?_⟩
  · have hfin : w.finish.filter (· ≠ []) = ((pss ++ [cs]).map encodeAll).filter (· ≠ []) := by
      unfold Writer.finish
      rw [hh.out, hh.cur]
      split <;> simp_all
    rw [hfin, List.filter_map]
    congr 2
    funext ps
    simp [encodeAll_eq_nil]
  · rw [List.flatten_filter_ne_nil]
    simp [hws]
  · intro ps hps
    rcases List.mem_append.mp (List.mem_of_mem_filter hps) with hps | hps
    · exact hh.fits ps hps
    · rw [List.mem_singleton.mp hps]
      exact hh.fit

end Writer

/-! ## The phases -/

namespace KCP

variable {k : KCP} {ws : List Segment}
variable {seg seg' s : Segment} {resent nx : UInt32}

theorem flushAcks_wrote : ∀ {l : List AckItem} {seg seg' : Segment} {w w' : Writer} {ws : List Segment},
    flushAcks k l seg w = .ok (seg', w') → seg.data = none → w.Wrote k.mtu ws →
    w'.Wrote k.mtu (ws ++ (pendingAcks k.rcvNxt l).map (ackSeg seg)) ∧
      seg' = ((pendingAcks k.rcvNxt l).map (ackSeg seg)).getLast?.getD seg := by
  intro l
  induction l with
  | nil =>
    intro seg seg' w w' ws h _ hw
    cases h
    exact ⟨by simpa [pendingAcks] using hw, rfl⟩
  | cons a rest ih =>
    intro seg seg' w w' ws h hd hw
    rw [flushAcks] at h
    rw [pendingAcks]
    split at h
    · rename_i hkeep
      obtain ⟨w₁, he, h⟩ := Go.bind_ok h
      have hw₁ := hw.encode (s := ackSeg seg a) hd he
      -- the template changes in `sn` and `ts`, which the next ACK sets again
      have hseg : ackSeg { seg with sn := a.sn, ts := a.ts } = ackSeg seg := rfl
      obtain ⟨h1, h2⟩ := ih h hd hw₁
      rw [hseg] at h1 h2
      rw [if_pos hkeep, List.map_cons, List.getLast?_cons, Option.getD_some]
      refine ⟨?_, h2⟩
      simpa using h1
    · rename_i hskip
      rw [if_neg hskip]
      exact ih h hd (hw.space _)

/-- A probe command, if its flag is set. -/
theorem flushProbe_wrote {flag : UInt32} {cmd : UInt8} {w w' : Writer}
    (h : flushProbe k flag cmd seg w = .ok (seg', w')) (hd : seg.data = none) (hw : w.Wrote k.mtu ws) :
    w'.Wrote k.mtu (ws ++ if k.probe &&& flag ≠ 0 then [{ seg with cmd := cmd }] else []) ∧
      ∃ c, seg' = { seg with cmd := c } := by
  unfold flushProbe at h
  split at h
  · rename_i hset
    obtain ⟨w₁, he, h⟩ := Go.bind_ok h
    cases h
    rw [if_pos hset]
    exact ⟨hw.encode (s := { seg with cmd := cmd }) hd he, cmd, rfl⟩
  · rename_i hset
    cases h
    rw [if_neg hset, List.append_nil]
    exact ⟨hw, seg.cmd, rfl⟩

theorem flushProbes_wrote {w w' : Writer} (h : flushProbes k seg w = .ok (seg', w'))
    (hd : seg.data = none) (hw : w.Wrote k.mtu ws) :
    w'.Wrote k.mtu (ws ++ ((if k.probe &&& IKCP_ASK_SEND ≠ 0 then [{ seg with cmd := IKCP_CMD_WASK }] else []) ++
      (if k.probe &&& IKCP_ASK_TELL ≠ 0 then [{ seg with cmd := IKCP_CMD_WINS }] else []))) ∧
      ∃ c, seg' = { seg with cmd := c } := by
  obtain ⟨⟨seg₁, w₁⟩, h1, h2⟩ := Go.bind_ok h
  obtain ⟨hw₁, c₁, rfl⟩ := flushProbe_wrote h1 hd hw
  obtain ⟨hw₂, c₂, rfl⟩ := flushProbe_wrote h2 hd hw₁
  rw [← List.append_assoc]
  exact ⟨hw₂, c₂, rfl⟩

theorem duePushes_acked {n : Nat} (ha : s.acked = 1) (q : List Segment) (t : UInt32) (clk : Clock) :
    duePushes k seg resent n (s :: q) t clk = duePushes k seg resent n q t clk := by
  simp [duePushes, ha]

theorem duePushes_waits {t : UInt32} {n : Nat} (ha : ¬ s.acked = 1) (hr : reason resent n t s = none)
    (q : List Segment) (clk : Clock) : duePushes k seg resent n (s :: q) t clk = duePushes k seg resent n q t clk := by
  simp [duePushes, ha, hr]

theorem duePushes_goes {t : UInt32} {n : Nat} {r : Reason} (ha : ¬ s.acked = 1)
    (hr : reason resent n t s = some r) (q : List Segment) (clk : Clock) : duePushes k seg resent n (s :: q) t clk =
      sentAs k seg r t (clk 0) s :: duePushes k seg resent n q (clk 0) clk.tail := by
  simp [duePushes, ha, hr]

theorem resendOne_wrote {s' : Segment} {n : Nat} {x x' : Xmit}
    (h : resendOne k seg resent n s x = .ok (s', x')) (hw : x.w.Wrote k.mtu ws) (q : List Segment) :
    ∃ sent, x'.w.Wrote k.mtu (ws ++ sent) ∧
      duePushes k seg resent n (s :: q) x.current x.clk = sent ++ duePushes k seg resent n q x'.current x'.clk := by
  unfold resendOne at h
  split at h
  · rename_i hack
    cases h
    rw [duePushes_acked hack]
    exact ⟨[], by simpa using hw, rfl⟩
  · rename_i hack
    split at h
    · rename_i hnone
      cases h
      rw [duePushes_waits hack hnone]
      exact ⟨[], by simpa using hw, by simp⟩
    · rename_i r hr
      obtain ⟨⟨s₁, x₁⟩, ht, h⟩ := Go.bind_ok h
      cases h
      obtain ⟨w₁, he, ht⟩ := Go.bind_ok ht
      obtain ⟨w₂, hc, ht⟩ := Go.bind_ok ht
      cases ht
      rw [duePushes_goes hack hr]
      refine ⟨[stamp k seg r x s], ?_, ?_⟩
      · rw [nearest_w]
        exact hw.write he hc
      · rw [nearest_current, nearest_clk]
        rfl

theorem resendLoop_wrote {n : Nat} : ∀ {buf buf' : List Segment} {x x' : Xmit}
    {ws : List Segment}, resendLoop k seg resent n buf x = .ok (buf', x') → x.w.Wrote k.mtu ws →
    x'.w.Wrote k.mtu (ws ++ duePushes k seg resent n buf x.current x.clk) := by
  intro buf
  induction buf with
  | nil =>
    intro buf' x x' ws h hw
    cases h
    simpa [duePushes] using hw
  | cons s q ih =>
    intro buf' x x' ws h hw
    rw [resendLoop] at h
    obtain ⟨⟨s₁, x₁⟩, h1, h⟩ := Go.bind_ok h
    obtain ⟨⟨q₂, x₂⟩, h2, h⟩ := Go.bind_ok h
    cases h
    obtain ⟨sent, hw₁, hdue⟩ := resendOne_wrote h1 hw q
    rw [hdue, ← List.append_assoc]
    exact ih h2 hw₁

/-- Only `wnd` and `una` of the template matter to phase 5. -/
theorem duePushes_template (hwnd : seg'.wnd = seg.wnd) (huna : seg'.una = seg.una) (resent : UInt32)
    (n : Nat) : ∀ (buf : List Segment) (current : UInt32) (clk : Clock),
    duePushes k seg' resent n buf current clk = duePushes k seg resent n buf current clk := by
  intro buf
  induction buf with
  | nil => exact fun _ _ => rfl
  | cons s q ih =>
    intro current clk
    simp only [duePushes, ih, sentAs, hwnd, huna]

theorem dueSegs_template {t : Segment} (hwnd : t.wnd = seg.wnd) (huna : t.una = seg.una) (n : Nat) (ft : FlushType)
    (clk : Clock) : dueSegs k t n ft clk = dueSegs k seg n ft clk := by
  cases ft with
  | full => exact duePushes_template hwnd huna _ _ _ _ _
  | ackOnly => rfl

/-- Phases 5 and 6. -/
theorem flushData_wrote {k' : KCP} {ft : FlushType} {clk : Clock} {n : Nat} {w : Writer} {out : List Bytes}
    (h : flushData k ft clk seg n w = .ok (k', out, nx)) (hw : w.Wrote k.mtu ws) :
    ∃ w' : Writer, out = w'.finish ∧ w'.Wrote k.mtu (ws ++ dueSegs k seg n ft clk) := by
  obtain ⟨⟨buf, x⟩, hx, h⟩ := Go.bind_ok h
  cases h
  refine ⟨x.w, rfl, ?_⟩
  cases ft with
  | full => exact resendLoop_wrote hx hw
  | ackOnly =>
    cases hx
    simpa [dueSegs] using hw

theorem probeSeg_template (k : KCP) : ∃ sn ts, k.probeSeg = { k.template with sn := sn, ts := ts } := by
  unfold probeSeg ackSegs
  rw [List.getLast?_map]
  cases (pendingAcks k.rcvNxt k.acklist).getLast? with
  | none => exact ⟨_, _, rfl⟩
  | some a => exact ⟨a.sn, a.ts, rfl⟩

/-- The state after phase 4: some queued segments have moved. -/
theorem filled_spec (k : KCP) (clk : Clock) : ∃ p t w m, (k.filled clk).1 = { k with
    acklist := [], probe := 0, tsProbe := t, probeWait := w, sndQueue := k.sndQueue.drop m,
    sndBuf := k.sndBuf ++ numberFrom k.conv k.sndNxt (k.sndQueue.take m), sndNxt := k.sndNxt + Serial.u32 m } ∧
    (probeTimer { k with acklist := [] } clk).1 =
      { k with acklist := [], probe := p, tsProbe := t, probeWait := w } := by
  obtain ⟨p, t, w, hp⟩ := probeTimer_spec { k with acklist := [] } clk
  obtain ⟨m, -, -, hf, -⟩ := fillWindow_spec k.sendWindow k.sndQueue
    { k with acklist := [], probe := 0, tsProbe := t, probeWait := w }
  refine ⟨p, t, w, m, ?_, hp⟩
  rw [← hf]
  unfold filled
  rw [← Prod.eta (probeTimer { k with acklist := [] } clk), hp]
  rfl

/-- A flush is phases 5 and 6 on the state after phase 4, with the ACKs and
the probes already written. -/
theorem flush_phases {k' : KCP} {ft : FlushType} {clk : Clock} {out : List Bytes}
    (h : flush k ft clk = .ok (k', out, nx)) : ∃ seg w, seg.wnd = k.template.wnd ∧ seg.una = k.template.una ∧
      w.Wrote k.mtu (k.ackSegs ++ k.probeSegs clk) ∧
      flushData (k.filled clk).1 ft (k.filled clk).2.2 seg (k.filled clk).2.1 w = .ok (k', out, nx) := by
  obtain ⟨p, t, w, m, -, hpt⟩ := k.filled_spec clk
  have hbits : (probeTimer k clk).1.probe = p := by
    have := congrArg KCP.probe hpt
    rwa [probeTimer_acklist] at this
  unfold flush at h
  obtain ⟨⟨seg₁, w₁⟩, h1, h⟩ := Go.bind_ok h
  obtain ⟨hw₁, hseg₁⟩ := flushAcks_wrote h1 rfl (Writer.wrote_nil k.mtu)
  obtain ⟨sn, ts, hprobe⟩ := k.probeSeg_template
  replace hseg₁ : seg₁ = k.probeSeg := hseg₁
  have hdata : seg₁.data = none := by rw [hseg₁, hprobe]; rfl
  rw [← Prod.eta (probeTimer { k with acklist := [] } clk), hpt] at h
  dsimp only at h
  obtain ⟨⟨seg₂, w₂⟩, h2, h⟩ := Go.bind_ok h
  obtain ⟨hw₂, c, rfl⟩ := flushProbes_wrote h2 hdata hw₁
  refine ⟨{ seg₁ with cmd := c }, w₂, ?_, ?_, ?_, ?_⟩
  · rw [hseg₁, hprobe]
  · rw [hseg₁, hprobe]
  · rw [probeSegs, hbits, ← hseg₁]
    exact hw₂
  · unfold filled
    rw [← Prod.eta (probeTimer { k with acklist := [] } clk), hpt]
    exact h

/-- **A flush sends what is pending, in order, in packets of whole segments.** -/
theorem flush_packets {k' : KCP} {ft : FlushType} {clk : Clock} {out : List Bytes}
    (h : flush k ft clk = .ok (k', out, nx)) : ∃ pss : List (List Segment), out.filter (· ≠ []) = pss.map encodeAll ∧
      pss.flatten = k.pending ft clk ∧ ∀ ps ∈ pss, Fitting k.mtu.toNat ps := by
  obtain ⟨p, t, w, m, hfilled, -⟩ := k.filled_spec clk
  have hmtu : (k.filled clk).1.mtu = k.mtu := by rw [hfilled]
  obtain ⟨seg, w, hwnd, huna, hw, hphase⟩ := flush_phases h
  rw [← hmtu] at hw
  obtain ⟨w₃, rfl, hw₃⟩ := flushData_wrote hphase hw
  obtain ⟨pss, hout, hflat, hfit⟩ := hw₃.finish
  rw [hmtu] at hfit
  rw [dueSegs_template hwnd huna] at hflat
  exact ⟨pss, hout, hflat, hfit⟩

end KCP

/-! ## The packet the acknowledgements are in -/

/-- `w'` is `w` some writes later: the packet that was open has grown, or has
grown and been sent. -/
def Writer.Continues (w w' : Writer) : Prop :=
  (∃ x, w'.out = w.out ∧ w'.cur = w.cur ++ x) ∨ ∃ x more, w'.out = w.out ++ (w.cur ++ x) :: more

namespace Writer.Continues

variable {w w' w'' : Writer}

theorem refl (w : Writer) : w.Continues w := .inl ⟨[], rfl, by simp⟩

theorem trans (h : w.Continues w') (h' : w'.Continues w'') : w.Continues w'' := by
  rcases h with ⟨x, ho, hc⟩ | ⟨x, more, ho⟩
  · rcases h' with ⟨y, ho', hc'⟩ | ⟨y, more, ho'⟩
    · exact .inl ⟨x ++ y, ho'.trans ho, by rw [hc', hc, List.append_assoc]⟩
    · exact .inr ⟨x ++ y, more, by rw [ho', ho, hc, List.append_assoc]⟩
  · rcases h' with ⟨y, ho', -⟩ | ⟨y, more', ho'⟩
    · exact .inr ⟨x, more, ho'.trans ho⟩
    · exact .inr ⟨x, more ++ (w'.cur ++ y) :: more', by rw [ho', ho, List.append_assoc, List.cons_append]⟩

theorem makeSpace (w : Writer) (mtu : UInt32) (n : Nat) : w.Continues (w.makeSpace mtu n) := by
  unfold Writer.makeSpace
  split
  · exact .inr ⟨[], [], by simp⟩
  · exact refl w

theorem encode {bufLen : Nat} {s : Segment} (h : w.encode bufLen s = .ok w') : w.Continues w' := by
  unfold Writer.encode at h
  split at h
  · cases h
  · cases h
    exact .inl ⟨s.header, rfl, rfl⟩

theorem copyData {bufLen : Nat} {d : Bytes} (h : w.copyData bufLen d = .ok w') : w.Continues w' := by
  unfold Writer.copyData at h
  split at h
  · cases h
  · cases h
    exact .inl ⟨d, rfl, rfl⟩

/-- What was in the open packet is the start of the first packet. -/
theorem first (h : w.Continues w') (hout : w.out = []) (hcur : w.cur ≠ []) :
    ∃ x more, w'.finish = (w.cur ++ x) :: more := by
  unfold Writer.finish
  rcases h with ⟨x, ho, hc⟩ | ⟨x, more, ho⟩
  · refine ⟨x, [], ?_⟩
    rw [if_neg (by simp [hc, hcur]), ho, hout, hc]
    rfl
  · rw [ho, hout, List.nil_append]
    split
    · exact ⟨x, more, rfl⟩
    · exact ⟨x, more ++ [w'.cur], rfl⟩

end Writer.Continues

namespace KCP

variable {k : KCP}

/-- The last ACK is always written. -/
theorem pendingAcks_ne_nil {r : UInt32} {l : List AckItem} (hl : l ≠ []) : pendingAcks r l ≠ [] := by
  induction l with
  | nil => exact absurd rfl hl
  | cons a rest ih =>
    rw [pendingAcks]
    split
    · simp
    · rename_i hskip
      exact ih fun hnil => hskip (.inr hnil)

/-- Acknowledgements that fit in one packet, whether written or not, stay in
the packet that is open. -/
theorem flushAcks_open : ∀ {l : List AckItem} {seg seg' : Segment} {w w' : Writer},
    flushAcks k l seg w = .ok (seg', w') → seg.data = none → w.cur.length + IKCP_OVERHEAD * l.length ≤ k.mtu.toNat →
    w'.out = w.out ∧ w'.cur = w.cur ++ encodeAll ((pendingAcks k.rcvNxt l).map (ackSeg seg)) := by
  intro l
  induction l with
  | nil =>
    intro seg seg' w w' h _ _
    cases h
    exact ⟨rfl, by simp [pendingAcks]⟩
  | cons a rest ih =>
    intro seg seg' w w' h hd hfit
    rw [List.length_cons, Nat.mul_succ] at hfit
    have hroom : w.makeSpace k.mtu IKCP_OVERHEAD = w := by
      unfold Writer.makeSpace
      exact if_neg (by omega)
    rw [flushAcks, hroom] at h
    rw [pendingAcks]
    split at h
    · rename_i hkeep
      obtain ⟨w₁, he, h⟩ := Go.bind_ok h
      unfold Writer.encode at he
      split at he
      · cases he
      cases he
      have hwire : (ackSeg seg a).wire = (ackSeg seg a).header := by simp [Segment.wire, Segment.bytes, ackSeg, hd]
      have hrest : (w.cur ++ (ackSeg seg a).header).length + IKCP_OVERHEAD * rest.length ≤ k.mtu.toNat := by
        simp only [List.length_append, Segment.header_length]
        simp only [IKCP_OVERHEAD] at hfit ⊢
        omega
      obtain ⟨h1, h2⟩ := ih h hd hrest
      rw [if_pos hkeep, List.map_cons, encodeAll_cons, hwire]
      refine ⟨h1, h2.trans ?_⟩
      rw [List.append_assoc]
      rfl
    · rename_i hskip
      rw [if_neg hskip]
      exact ih h hd (by omega)

theorem flushProbe_continues {flag : UInt32} {cmd : UInt8} {seg seg' : Segment} {w w' : Writer}
    (h : flushProbe k flag cmd seg w = .ok (seg', w')) : w.Continues w' := by
  unfold flushProbe at h
  split at h
  · obtain ⟨w₁, he, h⟩ := Go.bind_ok h
    cases h
    exact (Writer.Continues.makeSpace w _ _).trans (.encode he)
  · cases h
    exact .refl w

theorem resendOne_continues {seg s s' : Segment} {resent : UInt32} {n : Nat} {x x' : Xmit}
    (h : resendOne k seg resent n s x = .ok (s', x')) : x.w.Continues x'.w := by
  unfold resendOne at h
  split at h
  · cases h
    exact .refl _
  · split at h
    · cases h
      rw [nearest_w]
      exact .refl _
    · obtain ⟨⟨s₁, x₁⟩, ht, h⟩ := Go.bind_ok h
      cases h
      obtain ⟨w₁, he, ht⟩ := Go.bind_ok ht
      obtain ⟨w₂, hc, ht⟩ := Go.bind_ok ht
      cases ht
      rw [nearest_w]
      exact ((Writer.Continues.makeSpace x.w _ _).trans (.encode he)).trans (.copyData hc)

theorem resendLoop_continues {seg : Segment} {resent : UInt32} {n : Nat} : ∀ {buf buf' : List Segment} {x x' : Xmit},
    resendLoop k seg resent n buf x = .ok (buf', x') → x.w.Continues x'.w := by
  intro buf
  induction buf with
  | nil =>
    intro buf' x x' h
    cases h
    exact .refl _
  | cons s q ih =>
    intro buf' x x' h
    rw [resendLoop] at h
    obtain ⟨⟨s₁, x₁⟩, h1, h⟩ := Go.bind_ok h
    obtain ⟨⟨q₂, x₂⟩, h2, h⟩ := Go.bind_ok h
    cases h
    exact (resendOne_continues h1).trans (ih h2)

/-- If the acknowledgements fit in one packet, the first packet starts with
those the filter leaves. -/
theorem flush_first {k' : KCP} {ft : FlushType} {clk : Clock} {out : List Bytes} {nx : UInt32}
    (h : flush k ft clk = .ok (k', out, nx)) (hack : k.acklist ≠ [])
    (hfit : IKCP_OVERHEAD * k.acklist.length ≤ k.mtu.toNat) :
    ∃ rest more, out = (encodeAll k.ackSegs ++ rest) :: more := by
  unfold flush at h
  obtain ⟨⟨seg₁, w₁⟩, h1, h⟩ := Go.bind_ok h
  obtain ⟨hout, hcur⟩ := flushAcks_open h1 rfl (by simpa using hfit)
  rw [← Prod.eta (probeTimer { k with acklist := [] } clk)] at h
  dsimp only at h
  obtain ⟨⟨seg₂, w₂⟩, h2, h⟩ := Go.bind_ok h
  obtain ⟨⟨seg₃, w₃⟩, hp, hp'⟩ := Go.bind_ok h2
  obtain ⟨⟨buf, x⟩, hx, h⟩ := Go.bind_ok h
  cases h
  have hcont : w₂.Continues x.w := by
    cases ft with
    | full => exact resendLoop_continues hx
    | ackOnly =>
      cases hx
      exact .refl _
  have hne : w₁.cur ≠ [] := by
    rw [hcur, List.nil_append, Ne, encodeAll_eq_nil, List.map_eq_nil_iff]
    exact pendingAcks_ne_nil hack
  obtain ⟨rest, more, hfin⟩ := (((flushProbe_continues hp).trans (flushProbe_continues hp')).trans hcont).first hout hne
  refine ⟨rest, more, ?_⟩
  rw [hfin, hcur]
  rfl

end KCP

end KcpGo.L2
