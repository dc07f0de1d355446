import KcpGo.L2Machine.Flush
import Mathlib.Algebra.GroupWithZero.Nat

/-!
# What a `flush` does

`flush_spec` is what other modules use instead of the definition of `flush`.
Its fields (`FlushSpec`) say:

* `rcv`, `cfg`, `acklist`: the receive side and the configuration are left
  alone and the ACK list is emptied.
* `snd`, `window`: some number `m` of segments moves from `snd_queue` to
  `snd_buf` (`Snd.fillWindow`), each while the window was open; nothing else of
  the send side changes except retransmission stamps.
* `packets`: every packet is a run of whole segments, each one an ACK of a
  pending item, a window probe or answer, or an unacknowledged segment of
  `snd_buf`; all of them carry `rcv_nxt` and the free window.
-/
namespace KcpGo.L2

open KcpGo.L1

/-! ## Views of a control block -/

/-- The receive side. -/
structure Rcv where
  nxt : UInt32
  wnd : UInt32
  queue : List Segment
  buf : SegHeap

/-- The send side, retransmission state erased from the segments. -/
structure Snd where
  una : UInt32
  nxt : UInt32
  rmtWnd : UInt32
  queue : List Segment
  buf : List Segment

/-- What only the setters change. -/
structure Cfg where
  conv : UInt32
  mtu : UInt32
  mss : UInt32
  sndWnd : UInt32
  stream : Int32
  nocwnd : Int32
  bufLen : Nat

namespace KCP

def rcv (k : KCP) : Rcv := ⟨k.rcvNxt, k.rcvWnd, k.rcvQueue, k.rcvBuf⟩
def snd (k : KCP) : Snd := ⟨k.sndUna, k.sndNxt, k.rmtWnd, k.sndQueue, k.sndBuf.map Segment.core⟩
def cfg (k : KCP) : Cfg := ⟨k.conv, k.mtu, k.mss, k.sndWnd, k.stream, k.nocwnd, k.bufLen⟩

end KCP

/-- `q` numbered from `sn` on. -/
def numberFrom (conv : UInt32) : UInt32 → List Segment → List Segment
  | _, [] => []
  | sn, s :: q => KCP.numbered conv sn s :: numberFrom conv (sn + 1) q

@[simp] theorem numberFrom_length (conv sn : UInt32) (q : List Segment) :
    (numberFrom conv sn q).length = q.length := by
  induction q generalizing sn with
  | nil => rfl
  | cons s q ih => simp [numberFrom, ih]

theorem numberFrom_mem {conv b : UInt32} {q : List Segment} {s : Segment} (h : s ∈ numberFrom conv b q) :
    ∃ t ∈ q, ∃ sn, s = KCP.numbered conv sn t := by
  induction q generalizing b with
  | nil => simp [numberFrom] at h
  | cons x q ih =>
    rcases List.mem_cons.mp h with rfl | h
    · exact ⟨x, List.mem_cons_self, b, rfl⟩
    · obtain ⟨t, ht, sn, he⟩ := ih h
      exact ⟨t, List.mem_cons_of_mem _ ht, sn, he⟩

/-- Moving the first `m` queued segments into the send buffer. -/
def Snd.fillWindow (conv : UInt32) (v : Snd) (m : Nat) : Snd :=
  { v with nxt := v.nxt + Serial.u32 m
           queue := v.queue.drop m
           buf := v.buf ++ (numberFrom conv v.nxt (v.queue.take m)).map Segment.core }

/-! ## Packets -/

/-- `p` is a run of whole segments that all satisfy `P`. -/
def Carries (P : Segment → Prop) (p : Bytes) : Prop := ∃ ws, p = encodeAll ws ∧ ∀ w ∈ ws, P w

theorem Carries.nil {P : Segment → Prop} : Carries P [] := ⟨[], rfl, by simp⟩

theorem Carries.mono {P Q : Segment → Prop} {p : Bytes} (h : Carries P p) (hpq : ∀ w, P w → Q w) :
    Carries Q p := by
  obtain ⟨ws, hp, hw⟩ := h
  exact ⟨ws, hp, fun w hm => hpq w (hw w hm)⟩

namespace Writer

/-- Every packet already out, and the one being written, carry only `P`. -/
def Packed (P : Segment → Prop) (w : Writer) : Prop := Carries P w.cur ∧ ∀ p ∈ w.out, Carries P p

/-- Bytes written so far. -/
def total (w : Writer) : Nat := (w.out.map List.length).sum + w.cur.length

variable {P : Segment → Prop} {w w' w'' : Writer}

theorem Packed.makeSpace (h : w.Packed P) (mtu : UInt32) (n : Nat) : (w.makeSpace mtu n).Packed P := by
  unfold Writer.makeSpace
  split
  · refine ⟨Carries.nil, ?_⟩
    intro p hp
    rcases List.mem_append.mp hp with hp | hp
    · exact h.2 p hp
    · simp only [List.mem_singleton] at hp
      subst hp; exact h.1
  · exact h

@[simp] theorem total_makeSpace (mtu : UInt32) (n : Nat) (w : Writer) :
    (w.makeSpace mtu n).total = w.total := by
  unfold Writer.makeSpace total
  split
  · simp
  · rfl

/-- Header then payload is one whole segment. -/
theorem Packed.write (h : w.Packed P) {bufLen : Nat} {s : Segment} (hs : P s)
    (he : w.encode bufLen s = .ok w') (hc : w'.copyData bufLen s.bytes = .ok w'') : w''.Packed P := by
  unfold Writer.encode at he
  unfold Writer.copyData at hc
  split at he
  · cases he
  split at hc
  · cases hc
  cases he; cases hc
  obtain ⟨⟨ws, hcur, hws⟩, hout⟩ := h
  refine ⟨⟨ws ++ [s], ?_, ?_⟩, hout⟩
  · simp [hcur, Segment.wire]
  · intro x hx
    rcases List.mem_append.mp hx with hx | hx
    · exact hws x hx
    · simp only [List.mem_singleton] at hx
      subst hx; exact hs

/-- A header alone is a whole segment when there is no payload. -/
theorem Packed.encode (h : w.Packed P) {bufLen : Nat} {s : Segment} (hs : P s) (hd : s.data = none)
    (he : w.encode bufLen s = .ok w') : w'.Packed P := by
  unfold Writer.encode at he
  split at he
  · cases he
  cases he
  obtain ⟨⟨ws, hcur, hws⟩, hout⟩ := h
  refine ⟨⟨ws ++ [s], ?_, ?_⟩, hout⟩
  · simp [hcur, Segment.wire, Segment.bytes, hd]
  · intro x hx
    rcases List.mem_append.mp hx with hx | hx
    · exact hws x hx
    · simp only [List.mem_singleton] at hx
      subst hx; exact hs

theorem total_encode {bufLen : Nat} {s : Segment} (he : w.encode bufLen s = .ok w') :
    w'.total = w.total + 24 := by
  unfold Writer.encode at he
  split at he
  · cases he
  cases he
  simp [total]; omega

theorem total_copyData {bufLen : Nat} {d : Bytes} (he : w.copyData bufLen d = .ok w') :
    w'.total = w.total + d.length := by
  unfold Writer.copyData at he
  split at he
  · cases he
  cases he
  simp [total]; omega

theorem Packed.finish (h : w.Packed P) : ∀ p ∈ w.finish, Carries P p := by
  intro p hp
  unfold Writer.finish at hp
  split at hp
  · exact h.2 p hp
  · rcases List.mem_append.mp hp with hp | hp
    · exact h.2 p hp
    · simp only [List.mem_singleton] at hp
      subst hp; exact h.1

/-- Once a byte is written, some packet of a header or more goes out. -/
theorem finish_nonempty (h : w.Packed P) (ht : 0 < w.total) : ∃ p ∈ w.finish, 24 ≤ p.length := by
  have big : ∀ p : Bytes, Carries P p → p ≠ [] → 24 ≤ p.length := by
    intro p ⟨ws, hp, _⟩ hne
    cases ws with
    | nil => exact absurd hp hne
    | cons s ws => subst hp; simp; omega
  unfold Writer.finish
  by_cases hc : w.cur = []
  · simp only [hc, if_true]
    simp only [total, hc, List.length_nil, Nat.add_zero] at ht
    obtain ⟨n, hn, hpos⟩ := List.sum_pos_iff_exists_pos_nat.mp ht
    obtain ⟨p, hp, rfl⟩ := List.mem_map.mp hn
    refine ⟨p, hp, big p (h.2 p hp) ?_⟩
    rintro rfl; simp at hpos
  · simp only [hc, if_false]
    exact ⟨w.cur, by simp, big _ h.1 hc⟩

end Writer

/-! ## The phases -/

/-- The header template: what every segment of one flush shares. -/
structure IsTemplate (k : KCP) (seg : Segment) : Prop where
  conv : seg.conv = k.conv
  una : seg.una = k.rcvNxt
  wnd : seg.wnd = k.wndUnused
  data : seg.data = none

/-- A segment without payload that `flush` writes from the state `k`. -/
structure Control (k : KCP) (w : Segment) : Prop extends IsTemplate k w where
  kind : (w.cmd = IKCP_CMD_ACK ∧ ∃ a ∈ k.acklist, a.sn = w.sn) ∨
    w.cmd = IKCP_CMD_WASK ∨ w.cmd = IKCP_CMD_WINS

/-- A segment of the send buffer that `flush` writes; `k'` is the state after it. -/
structure Pushed (k k' : KCP) (w : Segment) : Prop where
  mem : w ∈ k'.sndBuf
  live : w.acked ≠ 1
  una : w.una = k.rcvNxt
  wnd : w.wnd = k.wndUnused

namespace KCP

variable {P : Segment → Prop}

theorem template_isTemplate (k : KCP) : IsTemplate k k.template := ⟨rfl, rfl, rfl, rfl⟩

theorem flushAcks_spec {k : KCP} (hP : ∀ w, Control k w → P w) :
    ∀ {l : List AckItem} {seg seg' : Segment} {w w' : Writer}, flushAcks k l seg w = .ok (seg', w') →
      (∀ a ∈ l, a ∈ k.acklist) → IsTemplate k seg → seg.cmd = IKCP_CMD_ACK → w.Packed P →
      IsTemplate k seg' ∧ w'.Packed P ∧ w.total ≤ w'.total := by
  intro l
  induction l with
  | nil =>
    intro seg seg' w w' h _ ht _ hw
    simp only [flushAcks, Except.ok.injEq, Prod.mk.injEq] at h
    obtain ⟨rfl, rfl⟩ := h
    exact ⟨ht, hw, Nat.le_refl _⟩
  | cons a rest ih =>
    intro seg seg' w w' h hl ht hc hw
    have hrest : ∀ b ∈ rest, b ∈ k.acklist := fun b hb => hl b (List.mem_cons_of_mem _ hb)
    rw [flushAcks] at h
    split at h
    · obtain ⟨w₁, he, h⟩ := Go.bind_ok h
      have ht₁ : IsTemplate k { seg with sn := a.sn, ts := a.ts } := ⟨ht.conv, ht.una, ht.wnd, ht.data⟩
      have hw₁ := (hw.makeSpace k.mtu IKCP_OVERHEAD).encode
        (hP _ ⟨ht₁, .inl ⟨hc, a, hl a (List.mem_cons_self), rfl⟩⟩) ht.data he
      obtain ⟨h1, h2, h3⟩ := ih h hrest ht₁ hc hw₁
      refine ⟨h1, h2, ?_⟩
      have := Writer.total_encode he
      rw [Writer.total_makeSpace] at this
      omega
    · obtain ⟨h1, h2, h3⟩ := ih h hrest ht hc (hw.makeSpace k.mtu IKCP_OVERHEAD)
      rw [Writer.total_makeSpace] at h3
      exact ⟨h1, h2, h3⟩

/-- `probeTimer` touches the probe fields only. -/
theorem probeTimer_spec (k : KCP) (clk : Clock) : ∃ p t w, (probeTimer k clk).1 =
    { k with probe := p, tsProbe := t, probeWait := w } := by
  unfold probeTimer
  split
  · split
    · exact ⟨_, _, _, rfl⟩
    · split
      · exact ⟨_, _, _, rfl⟩
      · exact ⟨_, _, _, rfl⟩
  · exact ⟨_, _, _, rfl⟩

theorem flushProbe_spec {k₀ k : KCP} (hP : ∀ w, Control k₀ w → P w)
    {flag : UInt32} {cmd : UInt8} (hcmd : cmd = IKCP_CMD_WASK ∨ cmd = IKCP_CMD_WINS)
    {seg seg' : Segment} {w w' : Writer} (h : flushProbe k flag cmd seg w = .ok (seg', w'))
    (ht : IsTemplate k₀ seg) (hw : w.Packed P) :
    IsTemplate k₀ seg' ∧ w'.Packed P ∧ w.total ≤ w'.total ∧
      (k.probe &&& flag ≠ 0 → 0 < w'.total) := by
  unfold flushProbe at h
  split at h
  · obtain ⟨w₁, he, h⟩ := Go.bind_ok h
    simp only [Except.ok.injEq, Prod.mk.injEq] at h
    obtain ⟨rfl, rfl⟩ := h
    have ht₁ : IsTemplate k₀ { seg with cmd := cmd } := ⟨ht.conv, ht.una, ht.wnd, ht.data⟩
    have htot := Writer.total_encode he
    rw [Writer.total_makeSpace] at htot
    exact ⟨ht₁, (hw.makeSpace k.mtu IKCP_OVERHEAD).encode (hP _ ⟨ht₁, .inr hcmd⟩) ht.data he,
      by omega, fun _ => by omega⟩
  · rename_i hz
    simp only [Except.ok.injEq, Prod.mk.injEq] at h
    obtain ⟨rfl, rfl⟩ := h
    exact ⟨ht, hw, Nat.le_refl _, fun hn => absurd hn hz⟩

theorem flushProbes_spec {k₀ k : KCP} (hP : ∀ w, Control k₀ w → P w)
    {seg seg' : Segment} {w w' : Writer} (h : flushProbes k seg w = .ok (seg', w'))
    (ht : IsTemplate k₀ seg) (hw : w.Packed P) :
    IsTemplate k₀ seg' ∧ w'.Packed P ∧ w.total ≤ w'.total ∧
      (k.probe &&& IKCP_ASK_SEND ≠ 0 → 0 < w'.total) := by
  obtain ⟨⟨seg₁, w₁⟩, h1, h2⟩ := Go.bind_ok h
  obtain ⟨ht₁, hw₁, hle₁, hs⟩ := flushProbe_spec hP (.inl rfl) h1 ht hw
  obtain ⟨ht₂, hw₂, hle₂, _⟩ := flushProbe_spec hP (.inr rfl) h2 ht₁ hw₁
  refine ⟨ht₂, hw₂, by omega, fun hn => ?_⟩
  have := hs hn
  omega

/-- What phase 4 does: `m` segments move, each while the window is open, and
it stops because the queue is empty or the window is closed. -/
theorem fillWindow_spec (cwnd : UInt32) : ∀ (q : List Segment) (k : KCP), ∃ m,
    (fillWindow cwnd k q).2 = m ∧ m ≤ q.length ∧
    (fillWindow cwnd k q).1 = { k with sndQueue := q.drop m
                                       sndBuf := k.sndBuf ++ numberFrom k.conv k.sndNxt (q.take m)
                                       sndNxt := k.sndNxt + Serial.u32 m } ∧
    (∀ j < m, itimediff (k.sndNxt + Serial.u32 j) (k.sndUna + cwnd) < 0) ∧
    (m < q.length → 0 ≤ itimediff (k.sndNxt + Serial.u32 m) (k.sndUna + cwnd)) := by
  intro q
  induction q with
  | nil =>
    intro k
    exact ⟨0, rfl, Nat.le_refl _, by simp [fillWindow, numberFrom], by simp, by simp⟩
  | cons s q ih =>
    intro k
    rw [fillWindow]
    split
    · rename_i hfull
      exact ⟨0, rfl, by simp, by simp [numberFrom], by simp, fun _ => by simpa using hfull⟩
    · rename_i hopen
      obtain ⟨m, hm, hle, he, hlt, hge⟩ := ih { k with sndBuf := k.sndBuf ++ [numbered k.conv k.sndNxt s]
                                                       sndNxt := k.sndNxt + 1 }
      have hsucc : ∀ j, k.sndNxt + 1 + Serial.u32 j = k.sndNxt + Serial.u32 (j + 1) := by
        intro j
        rw [← Serial.u32_succ, UInt32.add_assoc, UInt32.add_comm 1]
      refine ⟨m + 1, by simp [hm], by simpa using hle, ?_, ?_, ?_⟩
      · simp only [he, List.drop_succ_cons, List.take_succ_cons, numberFrom, List.append_assoc,
          List.singleton_append, hsucc]
      · intro j hj
        cases j with
        | zero =>
          rw [Int32.not_le] at hopen
          simpa using hopen
        | succ j =>
          rw [← hsucc]
          exact hlt j (by omega)
      · intro hlen
        rw [← hsucc]
        exact hge (by simpa using hlen)

@[simp] theorem nearest_w (x : Xmit) (s : Segment) : (nearest x s).w = x.w := by
  unfold nearest; split <;> rfl

@[simp] theorem nearest_current (x : Xmit) (s : Segment) : (nearest x s).current = x.current := by
  unfold nearest; split <;> rfl

@[simp] theorem nearest_clk (x : Xmit) (s : Segment) : (nearest x s).clk = x.clk := by
  unfold nearest; split <;> rfl

@[simp] theorem rearm_core (k : KCP) (t : UInt32) (s : Segment) (r : Reason) :
    (rearm k t s r).core = s.core := by
  cases r <;> rfl

/-- One iteration of phase 5 keeps the segment's content; an acknowledged one
is passed over, and a segment that is due is written. -/
theorem resendOne_spec {k : KCP} {seg s s' : Segment} {resent : UInt32} {n : Nat} {x x' : Xmit}
    (h : resendOne k seg resent n s x = .ok (s', x'))
    (hP : s'.acked ≠ 1 → s'.una = seg.una → s'.wnd = seg.wnd → P s') (hw : x.w.Packed P) :
    s'.core = s.core ∧ x'.w.Packed P ∧ x.w.total ≤ x'.w.total ∧
      (s.acked ≠ 1 → reason resent n x.current s ≠ none → 0 < x'.w.total) ∧
      (∀ t, x.current = t → (∀ i, x.clk i = t) → x'.current = t ∧ ∀ i, x'.clk i = t) := by
  unfold resendOne at h
  split at h
  · rename_i ha
    cases h
    exact ⟨rfl, hw, Nat.le_refl _, fun hn => absurd ha hn, fun t h1 h2 => ⟨h1, h2⟩⟩
  rename_i ha
  split at h
  · rename_i hr
    cases h
    exact ⟨rfl, by simpa using hw, by simp, fun _ hn => absurd hr hn,
      fun t h1 h2 => ⟨by simpa using h1, by simpa using h2⟩⟩
  · rename_i r hr
    obtain ⟨⟨s₁, x₁⟩, ht, h⟩ := Go.bind_ok h
    cases h
    unfold transmit at ht
    obtain ⟨w₁, he, ht⟩ := Go.bind_ok ht
    obtain ⟨w₂, hc, ht⟩ := Go.bind_ok ht
    simp only [Except.ok.injEq, Prod.mk.injEq] at ht
    obtain ⟨rfl, rfl⟩ := ht
    have hcore : (stamp k seg r x s).core = s.core := rearm_core k x.current s r
    have hacked := congrArg Segment.acked hcore
    simp only [Segment.core_acked] at hacked
    have h1 := Writer.total_encode he
    have h2 := Writer.total_copyData hc
    rw [Writer.total_makeSpace] at h1
    refine ⟨hcore, ?_, ?_, ?_, ?_⟩
    · simp only [nearest_w]
      exact (hw.makeSpace k.mtu _).write (hP (by rw [hacked]; exact ha) rfl rfl) he hc
    · simp only [nearest_w, count]; omega
    · intro _ _
      simp only [nearest_w, count]; omega
    · intro t _ hclk
      simp only [nearest_current, nearest_clk]
      exact ⟨hclk 0, fun i => hclk (i + 1)⟩

/-- Phase 5 as a whole. -/
theorem resendLoop_spec {k : KCP} {seg : Segment} {resent : UInt32} {n : Nat} :
    ∀ {buf buf' : List Segment} {x x' : Xmit}, resendLoop k seg resent n buf x = .ok (buf', x') →
      (∀ s ∈ buf', s.acked ≠ 1 → s.una = seg.una → s.wnd = seg.wnd → P s) → x.w.Packed P →
      buf'.map Segment.core = buf.map Segment.core ∧ x'.w.Packed P ∧ x.w.total ≤ x'.w.total ∧
      (∀ t, x.current = t → (∀ i, x.clk i = t) →
        (∃ s ∈ buf, s.acked ≠ 1 ∧ reason resent n t s ≠ none) → 0 < x'.w.total) := by
  intro buf
  induction buf with
  | nil =>
    intro buf' x x' h _ hw
    cases h
    exact ⟨rfl, hw, Nat.le_refl _, by simp⟩
  | cons s q ih =>
    intro buf' x x' h hP hw
    rw [resendLoop] at h
    obtain ⟨⟨s₁, x₁⟩, h1, h⟩ := Go.bind_ok h
    obtain ⟨⟨q₂, x₂⟩, h2, h⟩ := Go.bind_ok h
    cases h
    obtain ⟨hc₁, hw₁, hle₁, hdue₁, ht₁⟩ := resendOne_spec h1 (hP s₁ List.mem_cons_self) hw
    obtain ⟨hc₂, hw₂, hle₂, hdue₂⟩ := ih h2 (fun s hs => hP s (List.mem_cons_of_mem _ hs)) hw₁
    refine ⟨by simp [hc₁, hc₂], hw₂, by omega, ?_⟩
    intro t hcur hclk ⟨d, hd, hlive, hreason⟩
    obtain ⟨hcur₁, hclk₁⟩ := ht₁ t hcur hclk
    rcases List.mem_cons.mp hd with rfl | hd
    · have := hdue₁ hlive (by rw [hcur]; exact hreason)
      omega
    · exact hdue₂ t hcur₁ hclk₁ ⟨d, hd, hlive, hreason⟩

/-- Phase 6 changes the congestion state only, and leaves a window of at
least one when there is congestion control. -/
theorem updateCwnd_spec (k : KCP) (cwnd resent : UInt32) (change lost : Nat) :
    ∃ a b c, updateCwnd k cwnd resent change lost = { k with ssthresh := a, cwnd := b, incr := c } ∧
      (k.nocwnd = 0 → 1 ≤ b) := by
  have halve : ∃ a b c, halveRate resent change k = { k with ssthresh := a, cwnd := b, incr := c } := by
    unfold halveRate; split <;> exact ⟨_, _, _, rfl⟩
  have restart : ∃ a b c, restartRate cwnd lost (halveRate resent change k) =
      { k with ssthresh := a, cwnd := b, incr := c } := by
    obtain ⟨a, b, c, h⟩ := halve
    rw [h]; unfold restartRate; split <;> exact ⟨_, _, _, rfl⟩
  unfold updateCwnd
  split
  · rename_i hn
    exact ⟨_, _, _, rfl, fun h => absurd h hn⟩
  · obtain ⟨a, b, c, h⟩ := restart
    rw [h]; unfold floorRate
    split
    · exact ⟨_, _, _, rfl, fun _ => UInt32.le_refl 1⟩
    · rename_i hle
      exact ⟨_, _, _, rfl, fun _ => UInt32.not_lt.mp hle⟩

theorem probeTimer_acklist (k : KCP) (clk : Clock) :
    probeTimer { k with acklist := [] } clk =
      ({ (probeTimer k clk).1 with acklist := [] }, (probeTimer k clk).2) := by
  unfold probeTimer
  dsimp only
  split
  · split
    · rfl
    · split <;> rfl
  · rfl

end KCP

/-! ## The whole of `flush` -/

/-- A full flush sends `s` at time `t`. -/
def Due (t : UInt32) (s : Segment) : Prop := s.acked ≠ 1 ∧ (s.xmit = 0 ∨ 0 ≤ itimediff t s.resendts)

theorem Due.reason {t resent : UInt32} {n : Nat} {s : Segment} (h : Due t s) :
    KCP.reason resent n t s ≠ none := by
  unfold KCP.reason
  rcases h.2 with h | h
  · simp [h]
  · split
    · simp
    · split
      · simp
      · split
        · simp
        · simp

/-- A flush from `k` that returns normally; `m` is the number of segments it
moves into the send buffer. -/
structure FlushSpec (k : KCP) (ft : FlushType) (clk : Clock) (m : Nat) (k' : KCP) (out : List Bytes) :
    Prop where
  rcv : k'.rcv = k.rcv
  cfg : k'.cfg = k.cfg
  acklist : k'.acklist = []
  probe : k'.probe = 0
  probeWait : k'.probeWait = (KCP.probeTimer k clk).1.probeWait
  tsProbe : k'.tsProbe = (KCP.probeTimer k clk).1.tsProbe
  cwnd : k.nocwnd = 0 → 1 ≤ k'.cwnd
  count : m ≤ k.sndQueue.length
  snd : k'.snd = k.snd.fillWindow k.conv m
  window : ∀ j < m, itimediff (k.sndNxt + Serial.u32 j) (k.sndUna + k.sendWindow) < 0
  stop : m < k.sndQueue.length → 0 ≤ itimediff (k.sndNxt + Serial.u32 m) (k.sndUna + k.sendWindow)
  packets : ∀ p ∈ out, Carries (fun w => Control k w ∨ Pushed k k' w) p
  asks : (KCP.probeTimer k clk).1.probe &&& IKCP_ASK_SEND ≠ 0 → ∃ p ∈ out, 24 ≤ p.length
  sends : ft = .full → ∀ t, (∀ i, clk i = t) →
    (∃ s ∈ k.sndBuf ++ numberFrom k.conv k.sndNxt (k.sndQueue.take m), Due t s) →
    ∃ p ∈ out, 24 ≤ p.length

namespace KCP

/-- The common tail of the two flush types: from the state after phase 4 and
the buffer and writer after phase 5 to the end. -/
structure DataSpec (k : KCP) (ft : FlushType) (clk : Clock) (w : Writer) (P : Segment → Prop) (k' : KCP)
    (out : List Bytes) : Prop where
  state : ∃ buf st a b c, k' = { k with sndBuf := buf, state := st, ssthresh := a, cwnd := b, incr := c } ∧
    buf.map Segment.core = k.sndBuf.map Segment.core ∧ (k.nocwnd = 0 → 1 ≤ b)
  packets : ∀ p ∈ out, Carries P p
  some : 0 < w.total → ∃ p ∈ out, 24 ≤ p.length
  sends : ft = .full → ∀ t, (∀ i, clk i = t) → (∃ s ∈ k.sndBuf, Due t s) → ∃ p ∈ out, 24 ≤ p.length

theorem flushData_spec {k k' : KCP} {ft : FlushType} {clk : Clock} {seg : Segment} {n : Nat} {w : Writer}
    {out : List Bytes} {nx : UInt32} {P : Segment → Prop}
    (h : flushData k ft clk seg n w = .ok (k', out, nx)) (hw : w.Packed P)
    (hP : ∀ s ∈ k'.sndBuf, s.acked ≠ 1 → s.una = seg.una → s.wnd = seg.wnd → P s) :
    DataSpec k ft clk w P k' out := by
  unfold flushData at h
  obtain ⟨⟨buf, x⟩, hx, h⟩ := Go.bind_ok h
  simp only [Except.ok.injEq, Prod.mk.injEq] at h
  obtain ⟨hk, rfl, -⟩ := h
  obtain ⟨a, b, c, hu, hb⟩ := updateCwnd_spec { k with sndBuf := buf, state := x.state } k.sendWindow
    k.resentOf x.change x.lost
  rw [hu] at hk
  subst hk
  cases ft with
  | ackOnly =>
    cases hx
    exact ⟨⟨_, _, _, _, _, rfl, rfl, hb⟩, hw.finish, Writer.finish_nonempty hw, fun h => by cases h⟩
  | full =>
    obtain ⟨hcore, hw', hle, hdue⟩ := resendLoop_spec hx hP hw
    refine ⟨⟨_, _, _, _, _, rfl, hcore, hb⟩, hw'.finish, fun hpos => ?_, fun _ t ht hs => ?_⟩
    · exact Writer.finish_nonempty hw' (Nat.lt_of_lt_of_le hpos hle)
    · obtain ⟨s, hs, hd⟩ := hs
      exact Writer.finish_nonempty hw' (hdue t (ht 0) (fun i => ht (i + 1)) ⟨s, hs, hd.1, hd.reason⟩)

/-- **What a flush does.** -/
theorem flush_spec {k k' : KCP} {ft : FlushType} {clk : Clock} {out : List Bytes} {nx : UInt32}
    (h : flush k ft clk = .ok (k', out, nx)) : ∃ m, FlushSpec k ft clk m k' out := by
  unfold flush at h
  obtain ⟨⟨seg₁, w₁⟩, h1, h⟩ := Go.bind_ok h
  rw [probeTimer_acklist] at h
  obtain ⟨p, t, wt, hprobe⟩ := probeTimer_spec k clk
  have hclk : (∃ t, ∀ i, clk i = t) → ∀ i, (probeTimer k clk).2 i = clk i := by
    rintro ⟨t, ht⟩ i
    unfold probeTimer
    split
    · simp [Clock.tail, ht]
    · rfl
  generalize hpt : probeTimer k clk = pt at h hprobe hclk
  obtain ⟨k₁, clk₁⟩ := pt
  dsimp only at h hprobe hclk
  subst hprobe
  obtain ⟨⟨seg₂, w₂⟩, h2, h⟩ := Go.bind_ok h
  dsimp only at h2 h
  obtain ⟨m, hm, hle, hadm, hwin, hstop⟩ := fillWindow_spec k.sendWindow k.sndQueue
    { k with acklist := [], probe := 0, tsProbe := t, probeWait := wt }
  have hsw : sendWindow { k with acklist := [], probe := p, tsProbe := t, probeWait := wt } =
    k.sendWindow := rfl
  rw [hsw] at h
  generalize hr : fillWindow k.sendWindow { k with acklist := [], probe := 0, tsProbe := t, probeWait := wt }
    k.sndQueue = r at h hm hadm
  obtain ⟨k₂, n⟩ := r
  dsimp only at h hm hadm
  subst hm hadm
  let P : Segment → Prop := fun w => Control k w ∨ Pushed k k' w
  have hctl : ∀ w, Control k w → P w := fun w hw => .inl hw
  obtain ⟨ht₁, hw₁, -⟩ := flushAcks_spec hctl h1 (fun a ha => ha) (template_isTemplate k) rfl
    ⟨Carries.nil, by simp⟩
  obtain ⟨ht₂, hw₂, -, hask⟩ := flushProbes_spec hctl h2 ht₁ hw₁
  obtain ⟨⟨buf, st, a, b, c, hk', hbuf, hb⟩, hout, hsome, hsends⟩ := flushData_spec h hw₂
    fun s hs hl hu hw => .inr ⟨hs, hl, hu.trans ht₂.una, hw.trans ht₂.wnd⟩
  refine ⟨n, ?_⟩
  subst hk'
  exact {
    rcv := rfl, cfg := rfl, acklist := rfl, probe := rfl
    probeWait := by rw [hpt]
    tsProbe := by rw [hpt]
    cwnd := hb
    count := hle
    snd := by simp [KCP.snd, Snd.fillWindow, hbuf]
    window := hwin
    stop := hstop
    packets := hout
    asks := by rw [hpt]; exact fun hp => hsome (hask hp)
    sends := fun hf t ht hs => hsends hf t (fun i => (hclk ⟨t, ht⟩ i).trans (ht i)) hs }

end KCP
end KcpGo.L2
