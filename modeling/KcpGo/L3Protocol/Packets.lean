import KcpGo.L2Machine.Room
import KcpGo.L3Protocol.SendWindow

/-!
# Every operation returns, and how long its packets are

`Sendable n`: the MTU and every segment kept for sending, alone in a packet,
are at most `n` bytes. As long as `SetMtu` is called with at most `n`, every
operation keeps it (`Sendable.step`), no packet is longer than `n`, however
small the MTU has become meanwhile, and each one is a run of segments of this
conversation.

No operation panics on such a control block: `send_ok`, `recv_ok`, `setMtu_ok`
and `input_ok`, the last on up to `maxPacketSize` arbitrary bytes.
-/
namespace KcpGo.L2

open KcpGo.L1 KcpGo.Serial

/-! ## The length of packets -/

/-- Nothing written is longer than `n`. -/
structure Writer.Within (n : Nat) (w : Writer) : Prop where
  cur : w.cur.length ≤ n
  out : ∀ p ∈ w.out, p.length ≤ n

namespace Writer.Within

variable {n : Nat} {w w' : Writer}

theorem makeSpace (h : w.Within n) (mtu : UInt32) (space : Nat) : (w.makeSpace mtu space).Within n := by
  unfold Writer.makeSpace
  split
  · refine ⟨Nat.zero_le _, fun p hp => ?_⟩
    rcases List.mem_append.mp hp with hp | hp
    · exact h.out p hp
    · rw [List.mem_singleton.mp hp]
      exact h.cur
  · exact h

/-- A header and what belongs behind it, with the space made for both. -/
theorem encode (h : w.Within n) {mtu : UInt32} {space bufLen : Nat} {s : Segment} (hm : mtu.toNat ≤ n)
    (hs : space ≤ n) (h24 : IKCP_OVERHEAD ≤ space) (he : (w.makeSpace mtu space).encode bufLen s = .ok w') :
    w'.Within n ∧ w'.cur.length + space ≤ n + IKCP_OVERHEAD := by
  have hle := Writer.makeSpace_le mtu space w
  have hout := (h.makeSpace mtu space).out
  have hhead : s.header.length = IKCP_OVERHEAD := by simp [IKCP_OVERHEAD]
  unfold Writer.encode at he
  split at he
  · cases he
  · cases he
    have hcur : ((w.makeSpace mtu space).cur ++ s.header).length + space ≤ n + IKCP_OVERHEAD := by
      rw [List.length_append, hhead]
      omega
    refine ⟨⟨?_, hout⟩, hcur⟩
    dsimp only
    omega

theorem finish (h : w.Within n) : ∀ p ∈ w.finish, p.length ≤ n := by
  intro p hp
  unfold Writer.finish at hp
  split at hp
  · exact h.out p hp
  · rcases List.mem_append.mp hp with hp | hp
    · exact h.out p hp
    · rw [List.mem_singleton.mp hp]
      exact h.cur

end Writer.Within

namespace KCP

section
variable {n : Nat} {k : KCP} (hm : k.mtu.toNat ≤ n)
include hm

theorem flushAcks_within (h24 : IKCP_OVERHEAD ≤ n) : ∀ {l : List AckItem} {seg seg' : Segment} {w w' : Writer},
    flushAcks k l seg w = .ok (seg', w') → w.Within n → w'.Within n := by
  intro l
  induction l with
  | nil =>
    intro seg seg' w w' h hw
    cases h
    exact hw
  | cons a rest ih =>
    intro seg seg' w w' h hw
    rw [flushAcks] at h
    split at h
    · obtain ⟨w₁, he, h⟩ := Go.bind_ok h
      exact ih h (hw.encode hm h24 (Nat.le_refl _) he).1
    · exact ih h (hw.makeSpace _ _)

theorem flushProbe_within (h24 : IKCP_OVERHEAD ≤ n) {flag : UInt32} {cmd : UInt8} {seg seg' : Segment} {w w' : Writer}
    (h : flushProbe k flag cmd seg w = .ok (seg', w')) (hw : w.Within n) : w'.Within n := by
  unfold flushProbe at h
  split at h
  · obtain ⟨w₁, he, h⟩ := Go.bind_ok h
    cases h
    exact (hw.encode hm h24 (Nat.le_refl _) he).1
  · cases h
    exact hw

theorem transmit_within {s s' seg : Segment} (hs : Fits n s) {r : Reason} {x x' : Xmit}
    (h : transmit k seg r s x = .ok (s', x')) (hw : x.w.Within n) : x'.w.Within n := by
  have hdata : (stamp k seg r x s).len = s.len := by
    cases r <;> rfl
  unfold Fits at hs
  rw [← hdata] at hs
  unfold transmit at h
  obtain ⟨w₁, he, h⟩ := Go.bind_ok h
  obtain ⟨w₂, hc, h⟩ := Go.bind_ok h
  cases h
  obtain ⟨hw₁, hle⟩ := hw.encode hm hs (Nat.le_add_right _ _) he
  unfold Writer.copyData at hc
  split at hc
  · cases hc
  · cases hc
    refine ⟨?_, hw₁.out⟩
    unfold Segment.len at hle
    show (w₁.cur ++ _).length ≤ n
    rw [List.length_append]
    omega

theorem resendLoop_within {seg : Segment} {resent : UInt32} {new : Nat} : ∀ {l l' : List Segment} {x x' : Xmit},
    resendLoop k seg resent new l x = .ok (l', x') → (∀ s ∈ l, Fits n s) → x.w.Within n → x'.w.Within n := by
  intro l
  induction l with
  | nil =>
    intro l' x x' h _ hw
    cases h
    exact hw
  | cons s q ih =>
    intro l' x x' h hl hw
    rw [resendLoop] at h
    obtain ⟨⟨s₁, x₁⟩, h1, h⟩ := Go.bind_ok h
    obtain ⟨⟨q₂, x₂⟩, h2, h⟩ := Go.bind_ok h
    cases h
    refine ih h2 (fun s hs => hl s (List.mem_cons_of_mem _ hs)) ?_
    unfold resendOne at h1
    split at h1
    · cases h1
      exact hw
    · split at h1
      · cases h1
        simpa using hw
      · obtain ⟨⟨s₃, x₃⟩, ht, h1⟩ := Go.bind_ok h1
        cases h1
        simpa using transmit_within hm (hl s List.mem_cons_self) ht hw

theorem flushData_within (hb : ∀ s ∈ k.sndBuf, Fits n s) {k' : KCP} {ft : FlushType} {clk : Clock} {seg : Segment}
    {new : Nat} {w : Writer} {out : List Bytes} {nx : UInt32} (h : flushData k ft clk seg new w = .ok (k', out, nx))
    (hw : w.Within n) : ∀ p ∈ out, p.length ≤ n := by
  unfold flushData at h
  obtain ⟨⟨buf, x⟩, hx, h⟩ := Go.bind_ok h
  cases h
  cases ft with
  | ackOnly =>
    cases hx
    exact hw.finish
  | full => exact (resendLoop_within hm hx hb hw).finish

/-- **No packet of a flush is longer than `n`.** -/
theorem flush_within (h24 : IKCP_OVERHEAD ≤ n) (hf : AllFit n k) {k' : KCP} {ft : FlushType} {clk : Clock}
    {out : List Bytes} {nx : UInt32} (h : flush k ft clk = .ok (k', out, nx)) : ∀ p ∈ out, p.length ≤ n := by
  unfold flush at h
  obtain ⟨⟨seg₁, w₁⟩, h1, h⟩ := Go.bind_ok h
  rw [probeTimer_acklist] at h
  obtain ⟨p, t, wt, hprobe⟩ := probeTimer_spec k clk
  generalize probeTimer k clk = pt at h hprobe
  obtain ⟨k₁, clk₁⟩ := pt
  dsimp only at h hprobe
  subst hprobe
  obtain ⟨⟨seg₃, w₃⟩, h2, h⟩ := Go.bind_ok h
  obtain ⟨⟨seg₂, w₂⟩, h2, h3⟩ := Go.bind_ok h2
  obtain ⟨m, -, -, hadm, -⟩ := fillWindow_spec
    (sendWindow { k with acklist := [], probe := p, tsProbe := t, probeWait := wt })
    k.sndQueue { k with acklist := [], probe := 0, tsProbe := t, probeWait := wt }
  have hw₁ := flushAcks_within hm h24 h1 ⟨Nat.zero_le _, by simp⟩
  have hw₂ := flushProbe_within (k := { k with acklist := [], probe := p, tsProbe := t, probeWait := wt }) hm h24 h2 hw₁
  have hw₃ := flushProbe_within (k := { k with acklist := [], probe := p, tsProbe := t, probeWait := wt }) hm h24 h3 hw₂
  refine flushData_within ?_ ?_ h hw₃
  · rw [hadm]
    exact hm
  · rw [hadm]
    intro s hs
    rcases List.mem_append.mp hs with hs | hs
    · exact hf.buf s.core (List.mem_map_of_mem hs)
    · obtain ⟨q, hq, sn, rfl⟩ := numberFrom_mem hs
      exact hf.queue q (List.mem_of_mem_take hq)

end

/-! ## Operations that return -/

theorem fragCount_ok {mss : Nat} (h : 0 < mss) (len : Nat) : ∃ n, fragCount mss len = .ok n := by
  unfold fragCount
  split
  · exact ⟨_, rfl⟩
  · exact ⟨_, if_neg (by omega)⟩

theorem fragments_ok {mss : Nat} (h : mss ≤ maxPacketSize) (stream : Int32) : ∀ (n : Nat) (buffer : Bytes),
    ∃ segs, fragments stream mss n buffer = .ok segs
  | 0, _ => ⟨_, rfl⟩
  | n + 1, buffer => by
    obtain ⟨segs, hs⟩ := fragments_ok h stream n (buffer.drop (min buffer.length mss))
    rw [fragments, if_neg (by omega), hs]
    exact ⟨_, rfl⟩

/-- A queued segment has a pool buffer behind it, so it can grow to `mss`. -/
theorem extendTail_ok {mss : Nat} (h : mss ≤ maxPacketSize) {q : List Segment} (hq : ∀ s ∈ q, Waiting s)
    (buffer : Bytes) : ∃ r, extendTail mss q buffer = .ok r := by
  unfold extendTail
  split
  · exact ⟨_, rfl⟩
  · rename_i seg hlast
    have hseg := hq seg (List.mem_of_getLast? hlast)
    split
    · have hcap : ¬ dataCap seg < seg.len + min buffer.length (mss - seg.len) := by
        rw [dataCap, if_pos hseg.data]
        omega
      exact ⟨_, if_neg hcap⟩
    · exact ⟨_, rfl⟩

theorem send_ok {k : KCP} (h0 : 0 < k.mss.toNat) (h : k.mss.toNat ≤ maxPacketSize) (hq : ∀ s ∈ k.sndQueue, Waiting s)
    (buffer : Bytes) : ∃ r, k.send buffer = .ok r := by
  have fresh : ∀ (k₁ : KCP), k₁.mss = k.mss → ∀ b, ∃ r, k₁.sendFresh b = .ok r := by
    intro k₁ hm b
    obtain ⟨n, hn⟩ := @fragCount_ok k₁.mss.toNat (by rw [hm]; exact h0) b.length
    obtain ⟨segs, hs⟩ := @fragments_ok k₁.mss.toNat (by rw [hm]; exact h) k₁.stream n b
    rw [sendFresh, hn, Go.ok_bind]
    split
    · exact ⟨_, rfl⟩
    · rw [hs]
      exact ⟨_, rfl⟩
  unfold send
  split
  · exact ⟨_, rfl⟩
  split
  · exact fresh k rfl buffer
  · obtain ⟨⟨q, left⟩, hx⟩ := extendTail_ok h hq buffer
    rw [hx, Go.ok_bind]
    dsimp only
    split
    · exact ⟨_, rfl⟩
    · exact fresh { k with sndQueue := q } rfl left

theorem mergeFragments_ok : ∀ {q : List Segment} {room : Nat}, messageSize q ≤ room →
    ∃ r, mergeFragments room q = .ok r
  | [], _, _ => ⟨_, rfl⟩
  | seg :: q, room, h => by
    rw [messageSize] at h
    rw [mergeFragments]
    split at h
    · rename_i hfrg
      rw [if_neg (by omega), if_pos hfrg]
      exact ⟨_, rfl⟩
    · rename_i hfrg
      obtain ⟨⟨rest, q'⟩, hr⟩ := @mergeFragments_ok q (room - seg.len) (by omega)
      rw [if_neg (by omega), if_neg hfrg, hr]
      exact ⟨_, rfl⟩

theorem recv_ok (k : KCP) (room : Nat) : ∃ r, k.recv room = .ok r := by
  unfold recv
  split
  · exact ⟨_, rfl⟩
  rename_i hlow
  split
  · exact ⟨_, rfl⟩
  rename_i hroom
  have hsize : messageSize k.rcvQueue ≤ room := by
    unfold peekSize at hlow hroom
    split at hlow
    · exact absurd (by decide) hlow
    · rename_i seg q hq
      simp only [hq] at hroom
      rw [hq, messageSize]
      split at hroom
      · rename_i hfrg
        rw [if_pos hfrg]
        omega
      · rename_i hfrg
        split at hroom
        · rename_i hshort
          rw [if_neg hfrg, if_pos (by rw [hq]; exact hshort)] at hlow
          exact absurd (by decide) hlow
        · rw [messageSize, if_neg hfrg] at hroom
          rw [if_neg hfrg]
          omega
  obtain ⟨⟨written, q⟩, hm⟩ := mergeFragments_ok hsize
  rw [hm]
  exact ⟨_, rfl⟩

theorem parseData_ok (k : KCP) {s : Segment} (h : s.len ≤ maxPacketSize) : ∃ r, k.parseData s = .ok r := by
  unfold parseData
  split
  · exact ⟨_, rfl⟩
  · split
    · exact ⟨_, rfl⟩
    · exact ⟨_, if_neg (by omega)⟩

theorem inputSeg_ok (pkt : PacketType) (h : Header) {payload : Bytes} (hp : payload.length ≤ maxPacketSize)
    (st : InLoop) :
    ∃ st', inputSeg pkt h payload st = .ok st' := by
  have push : ∀ k : KCP, ∃ k', k.inputPush h payload = .ok k' := by
    intro k
    unfold inputPush
    split
    · split
      · obtain ⟨⟨k', r⟩, hd⟩ := (k.ackPush h.sn h.ts).parseData_ok (s := pushed h payload) hp
        rw [hd]
        exact ⟨_, rfl⟩
      · exact ⟨_, rfl⟩
    · exact ⟨_, rfl⟩
  unfold inputSeg
  dsimp only
  split
  · exact ⟨_, rfl⟩
  · split
    · obtain ⟨k', hk⟩ := push (st.k.inputHead pkt h).1
      rw [hk]
      exact ⟨_, rfl⟩
    · split <;> exact ⟨_, rfl⟩

theorem inputLoop_ok (pkt : PacketType) : ∀ (n : Nat) {data : Bytes}, data.length ≤ maxPacketSize → ∀ st : InLoop,
    ∃ r, inputLoop pkt n data st = .ok r
  | 0, _, _, _ => ⟨_, rfl⟩
  | n + 1, data, hd, st => by
    rw [inputLoop]
    split
    · exact ⟨_, rfl⟩
    dsimp only
    split
    · exact ⟨_, rfl⟩
    split
    · exact ⟨_, rfl⟩
    split
    · exact ⟨_, rfl⟩
    obtain ⟨st', hs⟩ := @inputSeg_ok pkt (readHeader data)
      ((data.drop IKCP_OVERHEAD).take (readHeader data).length.toNat)
      (by rw [List.length_take, List.length_drop]; omega) st
    rw [hs]
    exact inputLoop_ok pkt n (by rw [List.length_drop, List.length_drop]; omega) st'

theorem growCwnd_ok {k : KCP} (h : 0 < k.mss.toNat) (una : UInt32) : ∃ k', k.growCwnd una = .ok k' := by
  have hne : k.mss ≠ 0 := by
    rintro he
    rw [he] at h
    exact absurd h (by decide)
  have rate : ∃ k', k.growRate = .ok k' := by
    unfold growRate
    split
    · exact ⟨_, rfl⟩
    · have hz : (if k.incr < k.mss then k.mss else k.incr) ≠ 0 := by
        split
        · exact hne
        · rename_i hle
          intro he
          rw [he, UInt32.lt_iff_toNat_lt] at hle
          exact hle h
      exact ⟨_, if_neg hz⟩
  unfold growCwnd
  split
  · obtain ⟨k', hk⟩ := rate
    rw [hk]
    exact ⟨_, rfl⟩
  · exact ⟨_, rfl⟩

/-- `Input` returns on every packet its header loop gets through. -/
theorem inputBody_of_loop {k : KCP} (h : 0 < k.mss.toNat) {data : Bytes} {pkt : PacketType}
    (hloop : ∃ r, inputLoop pkt data.length data ⟨k, 0, false, false⟩ = .ok r) (clk : Clock) :
    ∃ r, k.inputBody data pkt clk = .ok r := by
  unfold inputBody
  split
  · exact ⟨_, rfl⟩
  obtain ⟨⟨st, ret⟩, hl⟩ := hloop
  rw [hl, Go.ok_bind]
  cases ret with
  | some r => exact ⟨_, rfl⟩
  | none =>
    have hloop : st.k.cfg = k.cfg :=
      inputLoop_keeps (P := fun k' => k'.cfg = k.cfg) (fun _ _ _ _ _ hs hp => hs.cfg.trans hp) hl rfl
    have hmss : (sampleRtt pkt st clk).1.mss = k.mss :=
      congrArg Cfg.mss ((sampleRtt_same pkt st clk).cfg.trans hloop)
    obtain ⟨k', hk⟩ := growCwnd_ok (k := (sampleRtt pkt st clk).1) (by rw [hmss]; exact h) k.sndUna
    dsimp only
    rw [hk]
    exact ⟨_, rfl⟩

theorem input_of_loop {k : KCP} (hr : Roomy k) (h : 0 < k.mss.toNat) {data : Bytes} {pkt : PacketType}
    (hloop : ∃ r, inputLoop pkt data.length data ⟨k, 0, false, false⟩ = .ok r) (nd : Bool) (clk : Clock) :
    ∃ r, k.input data pkt nd clk = .ok r := by
  obtain ⟨⟨e, ret, fl, clk'⟩, hb⟩ := inputBody_of_loop h hloop clk
  have hbody : Body k (.input data pkt nd clk) e := .input hb
  rw [input, hb, Go.ok_bind]
  cases ret with
  | some r => exact ⟨_, rfl⟩
  | none =>
    dsimp only
    split
    · exact ⟨_, rfl⟩
    · rename_i ft _
      have he : Roomy e := hbody.roomy (fun m hm => by cases hm) hr
      obtain ⟨⟨k', out, nx⟩, hf⟩ := flush_ok he ft clk'
      rw [hf]
      exact ⟨_, rfl⟩

theorem input_ok {k : KCP} (hr : Roomy k) (h : 0 < k.mss.toNat) {data : Bytes} (hd : data.length ≤ maxPacketSize)
    (pkt : PacketType) (nd : Bool) (clk : Clock) : ∃ r, k.input data pkt nd clk = .ok r :=
  input_of_loop hr h (inputLoop_ok pkt data.length hd _) nd clk

/-- A value that `SetMtu` takes is the MTU afterwards. -/
theorem setMtu_ok (k : KCP) {mtu : Int} (h : mtu ≤ poolMtu) : ∃ e r, k.setMtu mtu = .ok (e, r) ∧
    (mtu ≤ IKCP_OVERHEAD → e = k ∧ r = -1) ∧
    ((IKCP_OVERHEAD : Int) < mtu → r = 0 ∧ e.mtu = UInt32.ofInt mtu) := by
  unfold setMtu
  split
  · rename_i hlow
    exact ⟨k, -1, rfl, fun _ => ⟨rfl, rfl⟩, fun hlt => by omega⟩
  · rename_i hlow
    dsimp only
    have h24 : ((IKCP_OVERHEAD : Nat) : Int) = 24 := rfl
    have hmax : ((poolMtu : Nat) : Int) = 1496 := rfl
    have hbmod : ((mtu + IKCP_OVERHEAD) * 3).bmod (2 ^ 64) = (mtu + 24) * 3 := by
      rw [h24]
      exact Int.bmod_eq_of_le (by omega) (by omega)
    have h1 := (segRoom_le k.sndBuf (((mtu + IKCP_OVERHEAD) * 3).bmod (2 ^ 64))).1
    have h2 := (segRoom_le k.sndQueue (segRoom k.sndBuf (((mtu + IKCP_OVERHEAD) * 3).bmod (2 ^ 64)))).1
    rw [if_neg (by omega)]
    exact ⟨_, _, rfl, fun hle => absurd hle hlow, fun _ => ⟨rfl, rfl⟩⟩

end KCP

/-! ## Every operation -/

structure Sendable (n : Nat) (k : KCP) : Prop where
  roomy : Roomy k
  mss : 0 < k.mss.toNat
  mtu : k.mtu.toNat ≤ n
  fit : AllFit n k
  snd : SndOk k

/-- A segment as a peer with this `conv` sends it. -/
structure Speaks (conv : UInt32) (w : Segment) : Prop where
  conv : w.conv = conv
  cmd : KCP.isCmd w.cmd = true

theorem Body.conv {k e : KCP} {op : Op} (h : Body k op e) : e.conv = k.conv := by
  by_cases hc : op.configures = true
  · cases h with
    | wndSize a b =>
      unfold KCP.wndSize
      dsimp only
      split <;> split <;> rfl
    | noDelay a b c d =>
      unfold KCP.noDelay
      dsimp only
      split <;> split <;> split <;> split <;> rfl
    | setMtu hs => exact (KCP.setMtu_rest hs).2.2.2.1
    | setStream on => rfl
    | idle _ hs => exact congrArg Cfg.conv hs.cfg
    | send hs => cases hc
    | recv hs => cases hc
    | input hs => cases hc
  · exact congrArg Cfg.conv (h.cfg (Bool.not_eq_true _ ▸ hc))

theorem step_conv {k k' : KCP} {op : Op} {o : Out} (h : L2.step k op = .ok (k', o)) : k'.conv = k.conv := by
  obtain ⟨e, hb, hcase⟩ := step_split h
  rcases hcase with ⟨rfl, -, -⟩ | ⟨-, ft, clk, nx, hf⟩
  · exact hb.conv
  · obtain ⟨m, hspec⟩ := KCP.flush_spec hf
    exact (congrArg Cfg.conv hspec.cfg).trans hb.conv

namespace Sendable

variable {n : Nat} {k e : KCP} {op : Op}

theorem mss_le (h : Sendable n k) : IKCP_OVERHEAD + k.mss.toNat ≤ n := by
  have h1 := h.roomy.mss
  have h2 := h.mtu
  omega

theorem overhead_le (h : Sendable n k) : IKCP_OVERHEAD ≤ n := Nat.le_trans (Nat.le_add_right _ _) h.mss_le

theorem body (h : Sendable n k) (hn : n ≤ poolMtu) (hb : Body k op e) (hop : ∀ m, op = .setMtu m → m ≤ n) :
    Sendable n e := by
  have hroom : Roomy e := hb.roomy (fun m hm => Int.le_trans (hop m hm) (by omega)) h.roomy
  refine ⟨hroom, ?_, hb.mtu_le hop h.mtu, h.fit.body hb h.mss_le, (h.snd.body hb).1⟩
  by_cases hset : ∃ m, op = .setMtu m
  · obtain ⟨m, rfl⟩ := hset
    cases hb with
    | @setMtu _ _ _ hs =>
      have hle := hop m rfl
      obtain ⟨e', r, hs', hlow, hhigh⟩ := @KCP.setMtu_ok k m (by omega)
      rw [hs] at hs'
      cases hs'
      rcases Int.lt_or_le (IKCP_OVERHEAD : Int) m with hlt | hle'
      · have hmss := hroom.mss
        rw [(hhigh hlt).2] at hmss
        have hmtu : (UInt32.ofInt m).toNat = m.toNat := by
          have hmax : ((poolMtu : Nat) : Int) = 1496 := rfl
          rw [toNat_ofInt]
          omega
        omega
      · rw [(hlow hle').1]
        exact h.mss
    | idle hidle _ => cases hidle
  · rw [(hb.sizes fun m hm => hset ⟨m, hm⟩).2.1]
    exact h.mss

theorem flush (h : Sendable n k) {k' : KCP} {ft : FlushType} {clk : Clock} {out : List Bytes} {nx : UInt32}
    (hf : k.flush ft clk = .ok (k', out, nx)) :
    Sendable n k' ∧ ∀ p ∈ out, p.length ≤ n ∧ Carries (Speaks k.conv) p := by
  obtain ⟨m, hspec⟩ := KCP.flush_spec hf
  obtain ⟨hmtu, hmss, -⟩ := cfg_room hspec.cfg
  have hsnd : SndOk k' := hspec.keeps_snd h.snd
  have hconv : k'.conv = k.conv := congrArg Cfg.conv hspec.cfg
  refine ⟨⟨hspec.roomy h.roomy, hmss ▸ h.mss, hmtu ▸ h.mtu, hspec.allFit h.fit, hsnd⟩, fun p hp => ⟨?_, ?_⟩⟩
  · exact KCP.flush_within h.mtu h.overhead_le h.fit hf p hp
  · refine (hspec.packets p hp).mono fun w hw => ?_
    rcases hw with hc | hp
    · refine ⟨hc.conv, ?_⟩
      rcases hc.kind with ⟨hk, -⟩ | hk | hk <;> rw [hk] <;> rfl
    · have hcell := hsnd.cell hp.mem
      refine ⟨hcell.conv.trans hconv, ?_⟩
      rw [hcell.cmd]
      rfl

/-- **Every operation keeps the bound, and so do its packets.** -/
theorem step (h : Sendable n k) (hn : n ≤ poolMtu) (hop : ∀ m, op = .setMtu m → m ≤ n) {k' : KCP} {o : Out}
    (hs : L2.step k op = .ok (k', o)) :
    Sendable n k' ∧ ∀ p ∈ o.pkts, p.length ≤ n ∧ Carries (Speaks k.conv) p := by
  obtain ⟨e, hb, hcase⟩ := step_split hs
  have he := h.body hn hb hop
  rcases hcase with ⟨rfl, hno, -⟩ | ⟨-, ft, clk, nx, hf⟩
  · rw [hno]
    exact ⟨he, by simp⟩
  · rw [← hb.conv]
    exact he.flush hf

end Sendable

theorem Sendable.mono {n m : Nat} {k : KCP} (h : Sendable n k) (hnm : n ≤ m) : Sendable m k where
  roomy := h.roomy
  mss := h.mss
  mtu := Nat.le_trans h.mtu hnm
  fit := ⟨fun s hs => Nat.le_trans (h.fit.buf s hs) hnm, fun s hs => Nat.le_trans (h.fit.queue s hs) hnm⟩
  snd := h.snd

theorem sendable_newKCP (conv : UInt32) : Sendable maxPacketSize (newKCP conv) where
  roomy := roomy_newKCP conv
  mss := (by decide : 0 < (IKCP_MTU_DEF - UInt32.ofNat IKCP_OVERHEAD).toNat)
  mtu := (by decide : IKCP_MTU_DEF.toNat ≤ maxPacketSize)
  fit := ⟨by simp [newKCP, KCP.snd], by simp [newKCP]⟩
  snd := sndOk_newKCP conv

/-- With nothing queued yet the first MTU sets the bound. -/
theorem sendable_setMtu {n : Nat} (hn : n ≤ maxPacketSize) (conv : UInt32) {m r : Int} {e : KCP}
    (h24 : (IKCP_OVERHEAD : Int) < m)
    (hm : m ≤ n) (hs : (newKCP conv).setMtu m = .ok (e, r)) : Sendable n e := by
  have hpool : (maxPacketSize : Int) ≤ poolMtu := by decide
  have hmax : m ≤ maxPacketSize := by omega
  obtain ⟨e', r', hs', -, hset⟩ := (newKCP conv).setMtu_ok (Int.le_trans hmax hpool)
  rw [hs] at hs'
  cases hs'
  have he : Sendable maxPacketSize e := (sendable_newKCP conv).body (by decide) (.setMtu hs)
    (fun x hx => by cases hx; exact hmax)
  have hsnd := (KCP.setMtu_rest hs).2.1
  have hq : e.sndQueue = [] := congrArg Snd.queue hsnd
  refine ⟨he.roomy, he.mss, ?_, ⟨?_, ?_⟩, he.snd⟩
  · rw [(hset h24).2]
    show (UInt32.ofNat (m % 2 ^ 32).toNat).toNat ≤ n
    rw [UInt32.toNat_ofNat']
    have : ((IKCP_OVERHEAD : Nat) : Int) = 24 := rfl
    omega
  · rw [hsnd]
    simp [newKCP, KCP.snd]
  · rw [hq]
    simp

end KcpGo.L2
