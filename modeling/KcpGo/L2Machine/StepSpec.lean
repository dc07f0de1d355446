import KcpGo.L2Machine.InputSpec

/-!
# One operation: a body, then at most one flush

Every operation changes the state by a body that sends nothing (`Body`) and
then returns, or ends in one flush of the state the body left
(`step_split`). Invariants are proved for bodies and for `flush` separately.
-/
namespace KcpGo.L2

open KcpGo.L1

variable {k k' e : KCP}

/-- The state on which an operation runs `flush`, if it does. -/
def flushEntry (k : KCP) : Op → Option KCP
  | .flush _ _ => some k
  | .update clk => if (k.updateTimer (clk 0)).2 then some (k.updateTimer (clk 0)).1 else none
  | .input data pkt nd clk =>
    match k.inputBody data pkt clk with
    | .ok (k₁, none, fl, _) => if (k₁.flushWanted fl nd).isSome then some k₁ else none
    | _ => none
  | _ => none

/-- Operations that do nothing, apart from timers, before their flush. -/
def Op.isIdle : Op → Bool
  | .peekSize | .flush _ _ | .resetRTO _ | .waitSnd | .update _ | .check _ => true
  | _ => false

/-- The part of an operation before its flush. -/
inductive Body (k : KCP) : Op → KCP → Prop where
  | send {buffer : Bytes} {e : KCP} {r : Int} (h : k.send buffer = .ok (e, r)) : Body k (.send buffer) e
  | recv {room : Nat} {e : KCP} {r : Int} {d : Bytes} (h : k.recv room = .ok (e, r, d)) :
    Body k (.recv room) e
  | input {data : Bytes} {pkt : PacketType} {nd : Bool} {clk clk' : Clock} {e : KCP} {ret : Option Int}
    {fl : Bool} (h : k.inputBody data pkt clk = .ok (e, ret, fl, clk')) : Body k (.input data pkt nd clk) e
  | wndSize (a b : Int) : Body k (.wndSize a b) (k.wndSize a b)
  | noDelay (a b c d : Int) : Body k (.noDelay a b c d) (k.noDelay a b c d)
  | setMtu {mtu r : Int} {e : KCP} (h : k.setMtu mtu = .ok (e, r)) : Body k (.setMtu mtu) e
  | setStream (on : Bool) : Body k (.setStream on) { k with stream := if on then 1 else 0 }
  | idle {op : Op} {e : KCP} (hop : op.isIdle = true) (h : Same k e) : Body k op e

theorem updateTimer_same (k : KCP) (now : UInt32) : Same k (k.updateTimer now).1 := by
  have start : ∀ a : KCP, Same a (a.startTimer now) := by
    intro a
    unfold KCP.startTimer
    split <;> exact ⟨rfl, rfl, rfl, rfl⟩
  have sync : ∀ a : KCP, Same a (a.resync now) := by
    intro a
    unfold KCP.resync
    split <;> exact ⟨rfl, rfl, rfl, rfl⟩
  have expire : ∀ a : KCP, Same a (a.expire now).1 := by
    intro a
    unfold KCP.expire
    split <;> exact ⟨rfl, rfl, rfl, rfl⟩
  exact (start k).trans ((sync _).trans (expire _))

theorem resetRTO_same (k : KCP) (clk : Clock) : Same k (k.resetRTO clk) := by
  refine ⟨rfl, ?_, rfl, rfl⟩
  simp only [KCP.snd, KCP.resetRTO, List.map_map]
  rfl

/-- **Every operation is a body and at most one flush.** -/
theorem step_split {op : Op} {o : Out} (h : step k op = .ok (k', o)) :
    ∃ e, Body k op e ∧ ((k' = e ∧ o.pkts = [] ∧ flushEntry k op = none) ∨
      (flushEntry k op = some e ∧ ∃ ft clk nx, e.flush ft clk = .ok (k', o.pkts, nx))) := by
  cases op with
  | send buffer =>
    obtain ⟨⟨e, r⟩, hs, h⟩ := Go.bind_ok h
    cases h
    exact ⟨_, .send hs, .inl ⟨rfl, rfl, rfl⟩⟩
  | recv room =>
    obtain ⟨⟨e, r, d⟩, hs, h⟩ := Go.bind_ok h
    cases h
    exact ⟨_, .recv hs, .inl ⟨rfl, rfl, rfl⟩⟩
  | peekSize =>
    cases h
    exact ⟨_, .idle rfl (Same.refl _), .inl ⟨rfl, rfl, rfl⟩⟩
  | flush ft clk =>
    obtain ⟨⟨e, pkts, nx⟩, hs, h⟩ := Go.bind_ok h
    cases h
    exact ⟨_, .idle rfl (Same.refl _), .inr ⟨rfl, ft, clk, nx, hs⟩⟩
  | input data pkt nd clk =>
    obtain ⟨⟨e, r, pkts⟩, hs, h⟩ := Go.bind_ok h
    cases h
    obtain ⟨k₁, ret, fl, clk₁, hb, hcase⟩ := KCP.input_spec hs
    refine ⟨k₁, .input hb, ?_⟩
    simp only [flushEntry, hb]
    rcases hcase with ⟨c, rfl, -, rfl, rfl⟩ | ⟨rfl, -, hw, rfl, rfl⟩ | ⟨rfl, -, ft, nx, hw, hf⟩
    · exact .inl ⟨rfl, rfl, rfl⟩
    · exact .inl ⟨rfl, rfl, by simp [hw]⟩
    · exact .inr ⟨by simp [hw], ft, clk₁, nx, hf⟩
  | noDelay a b c d =>
    cases h
    exact ⟨_, .noDelay a b c d, .inl ⟨rfl, rfl, rfl⟩⟩
  | wndSize a b =>
    cases h
    exact ⟨_, .wndSize a b, .inl ⟨rfl, rfl, rfl⟩⟩
  | setMtu mtu =>
    obtain ⟨⟨e, r⟩, hs, h⟩ := Go.bind_ok h
    cases h
    exact ⟨_, .setMtu hs, .inl ⟨rfl, rfl, rfl⟩⟩
  | setStream on =>
    cases h
    exact ⟨_, .setStream on, .inl ⟨rfl, rfl, rfl⟩⟩
  | resetRTO clk =>
    cases h
    exact ⟨_, .idle rfl (resetRTO_same k clk), .inl ⟨rfl, rfl, rfl⟩⟩
  | waitSnd =>
    cases h
    exact ⟨_, .idle rfl (Same.refl _), .inl ⟨rfl, rfl, rfl⟩⟩
  | update clk =>
    obtain ⟨⟨e, pkts⟩, hs, h⟩ := Go.bind_ok h
    cases h
    unfold KCP.update at hs
    refine ⟨(k.updateTimer (clk 0)).1, .idle rfl (updateTimer_same k (clk 0)), ?_⟩
    split at hs
    · rename_i hf
      obtain ⟨⟨e, o, nx⟩, hfl, hs⟩ := Go.bind_ok hs
      cases hs
      exact .inr ⟨by simp [flushEntry, hf], .full, clk.tail, nx, hfl⟩
    · rename_i hf
      cases hs
      exact .inl ⟨rfl, rfl, by simp [flushEntry, hf]⟩
  | check now =>
    cases h
    exact ⟨_, .idle rfl (Same.refl _), .inl ⟨rfl, rfl, rfl⟩⟩

/-! ## `Send` -/

/-- A segment waiting for its number. -/
structure Waiting (s : Segment) : Prop where
  acked : s.acked = 0
  xmit : s.xmit = 0
  data : s.data.isSome = true
  len : s.len ≤ maxPacketSize

namespace KCP

theorem fragments_waiting {stream : Int32} {mss : Nat} : ∀ {n : Nat} {buffer : Bytes} {segs : List Segment},
    fragments stream mss n buffer = .ok segs → ∀ s ∈ segs, Waiting s := by
  intro n
  induction n with
  | zero =>
    intro buffer segs h
    cases h
    simp
  | succ n ih =>
    intro buffer segs h
    rw [fragments] at h
    split at h
    · cases h
    rename_i hsize
    obtain ⟨rest, hr, h⟩ := Go.bind_ok h
    cases h
    intro s hs
    rcases List.mem_cons.mp hs with rfl | hs
    · refine ⟨rfl, rfl, rfl, ?_⟩
      simp only [Segment.len, Segment.bytes, Option.getD_some, List.length_take]
      omega
    · exact ih hr s hs

/-- Without coalescing `Send` appends fragments or refuses. -/
theorem sendFresh_spec {buffer : Bytes} {r : Int} (h : k.sendFresh buffer = .ok (e, r)) :
    (e = k ∧ r = -2) ∨ ∃ n segs, fragCount k.mss.toNat buffer.length = .ok n ∧ n ≤ 255 ∧
      fragments k.stream k.mss.toNat n buffer = .ok segs ∧
      e = { k with sndQueue := k.sndQueue ++ segs } ∧ r = 0 := by
  unfold sendFresh at h
  obtain ⟨n, hn, h⟩ := Go.bind_ok h
  split at h
  · cases h
    exact .inl ⟨rfl, rfl⟩
  · rename_i hle
    obtain ⟨segs, hs, h⟩ := Go.bind_ok h
    cases h
    exact .inr ⟨n, segs, hn, Nat.le_of_not_lt hle, hs, rfl, rfl⟩

theorem extendTail_waiting {mss : Nat} {q q' : List Segment} {buffer left : Bytes}
    (h : extendTail mss q buffer = .ok (q', left)) (hq : ∀ s ∈ q, Waiting s) : ∀ s ∈ q', Waiting s := by
  unfold extendTail at h
  split at h
  · cases h
    exact hq
  · rename_i seg hlast
    have hseg := hq seg (List.mem_of_getLast? hlast)
    split at h
    · dsimp only at h
      split at h
      · cases h
      · rename_i hcap
        cases h
        intro s hs
        rcases List.mem_append.mp hs with hs | hs
        · exact hq s (List.mem_of_mem_dropLast hs)
        · simp only [List.mem_singleton] at hs
          subst hs
          refine ⟨hseg.acked, hseg.xmit, rfl, ?_⟩
          simp only [dataCap, hseg.data, if_true, Segment.len] at hcap
          simp only [Segment.len, Segment.bytes, Option.getD_some, List.length_append, List.length_take] at hcap ⊢
          omega
    · cases h
      exact hq

/-- `Send` changes `snd_queue` only. -/
theorem send_spec {buffer : Bytes} {r : Int} (h : k.send buffer = .ok (e, r)) :
    ∃ q, e = { k with sndQueue := q } ∧ ((∀ s ∈ k.sndQueue, Waiting s) → ∀ s ∈ q, Waiting s) := by
  have fresh : ∀ {k e : KCP} {b : Bytes}, k.sendFresh b = .ok (e, r) →
      ∃ q, e = { k with sndQueue := q } ∧ ((∀ s ∈ k.sndQueue, Waiting s) → ∀ s ∈ q, Waiting s) := by
    intro k e b h
    rcases sendFresh_spec h with ⟨rfl, -⟩ | ⟨n, segs, -, -, hs, rfl, -⟩
    · exact ⟨e.sndQueue, rfl, id⟩
    · refine ⟨_, rfl, fun hq s hs' => ?_⟩
      rcases List.mem_append.mp hs' with hm | hm
      · exact hq s hm
      · exact fragments_waiting hs s hm
  unfold send at h
  split at h
  · cases h
    exact ⟨k.sndQueue, rfl, id⟩
  split at h
  · exact fresh h
  · obtain ⟨⟨q, left⟩, hx, h⟩ := Go.bind_ok h
    dsimp only at h
    split at h
    · cases h
      exact ⟨q, rfl, extendTail_waiting hx⟩
    · obtain ⟨q', rfl, hq'⟩ := fresh h
      exact ⟨q', rfl, fun hq => hq' (extendTail_waiting hx hq)⟩

/-! ## `Recv` and the setters -/

/-- The first message is complete and fits. -/
def readable (k : KCP) (room : Nat) : Prop := 0 ≤ k.peekSize ∧ k.peekSize ≤ room

instance (k : KCP) (room : Nat) : Decidable (k.readable room) := inferInstanceAs (Decidable (_ ∧ _))

/-- `Recv` refuses, or merges one message and moves what became ready. -/
theorem recv_spec {room : Nat} {r : Int} {d : Bytes} (h : k.recv room = .ok (e, r, d)) :
    (¬ k.readable room ∧ e = k ∧ r < 0 ∧ d = []) ∨
      (k.readable room ∧ ∃ q p, mergeFragments room k.rcvQueue = .ok (d, q) ∧
        e = { moveAll { k with rcvQueue := q } with probe := p } ∧ r = d.length) := by
  unfold recv at h
  unfold readable
  split at h
  · cases h
    exact .inl ⟨by omega, rfl, by decide, rfl⟩
  split at h
  · cases h
    exact .inl ⟨by omega, rfl, by decide, rfl⟩
  · obtain ⟨⟨w, q⟩, hm, h⟩ := Go.bind_ok h
    refine .inr ⟨by omega, q, ?_⟩
    dsimp only at h
    split at h
    · cases h
      exact ⟨_, hm, rfl, rfl⟩
    · cases h
      exact ⟨(moveAll { k with rcvQueue := q }).probe, hm, rfl, rfl⟩

theorem recv_rest {room : Nat} {r : Int} {d : Bytes} (h : k.recv room = .ok (e, r, d)) :
    e.snd = k.snd ∧ e.cfg = k.cfg ∧ e.rcvWnd = k.rcvWnd ∧ e.acklist = k.acklist := by
  rcases recv_spec h with ⟨-, rfl, -, -⟩ | ⟨-, q, p, -, rfl, -⟩
  · exact ⟨rfl, rfl, rfl, rfl⟩
  · obtain ⟨b, q', s, he⟩ := moveReady_frame k.rcvBuf.segments.length { k with rcvQueue := q }
    rw [moveAll, he]
    exact ⟨rfl, rfl, rfl, rfl⟩

theorem noDelay_rest (k : KCP) (a b c d : Int) :
    (k.noDelay a b c d).rcv = k.rcv ∧ (k.noDelay a b c d).snd = k.snd ∧
      (k.noDelay a b c d).acklist = k.acklist := by
  unfold noDelay
  dsimp only
  split <;> split <;> split <;> split <;> exact ⟨rfl, rfl, rfl⟩

theorem wndSize_rest (k : KCP) (a b : Int) :
    (k.wndSize a b).snd = k.snd ∧ (k.wndSize a b).acklist = k.acklist ∧
      (k.wndSize a b).rcvNxt = k.rcvNxt ∧ (k.wndSize a b).rcvBuf = k.rcvBuf ∧
      (k.wndSize a b).rcvQueue = k.rcvQueue ∧ (b ≤ 0 → (k.wndSize a b).rcvWnd = k.rcvWnd) := by
  unfold wndSize
  dsimp only
  split <;> split <;> first
    | exact ⟨rfl, rfl, rfl, rfl, rfl, fun _ => rfl⟩
    | exact ⟨rfl, rfl, rfl, rfl, rfl, fun hb => by omega⟩

theorem setMtu_rest {mtu r : Int} (h : k.setMtu mtu = .ok (e, r)) :
    e.rcv = k.rcv ∧ e.snd = k.snd ∧ e.acklist = k.acklist ∧ e.conv = k.conv ∧ e.stream = k.stream ∧
      e.sndWnd = k.sndWnd := by
  unfold setMtu at h
  split at h
  · cases h
    exact ⟨rfl, rfl, rfl, rfl, rfl, rfl⟩
  · dsimp only at h
    split at h
    · cases h
    · cases h
      exact ⟨rfl, rfl, rfl, rfl, rfl, rfl⟩

end KCP

/-! ## The configuration -/

/-- The operations that change the configuration. -/
def Op.configures : Op → Bool
  | .noDelay _ _ _ _ | .wndSize _ _ | .setMtu _ | .setStream _ => true
  | _ => false

theorem Body.cfg {op : Op} (h : Body k op e) (hop : op.configures = false) : e.cfg = k.cfg := by
  cases h with
  | send h =>
    obtain ⟨q, rfl, -⟩ := KCP.send_spec h
    rfl
  | recv h => exact (KCP.recv_rest h).2.1
  | input h =>
    rcases KCP.inputBody_spec h with ⟨-, rfl, -⟩ | ⟨-, st, hl, hsame, -⟩
    · rfl
    · refine hsame.cfg.trans ?_
      exact KCP.inputLoop_keeps (P := fun k' => k'.cfg = k.cfg) (fun _ _ _ _ _ hs hp => hs.cfg.trans hp) hl rfl
  | wndSize a b => cases hop
  | noDelay a b c d => cases hop
  | setMtu h => cases hop
  | setStream on => cases hop
  | idle _ hsame => exact hsame.cfg

/-- An MTU bound that `SetMtu` respects is kept. -/
theorem Body.mtu_le {op : Op} {n : Nat} (h : Body k op e) (hop : ∀ m, op = .setMtu m → m ≤ n)
    (hm : k.mtu.toNat ≤ n) : e.mtu.toNat ≤ n := by
  have same : e.mtu = k.mtu → e.mtu.toNat ≤ n := fun he => he ▸ hm
  cases h with
  | send h => exact same (congrArg Cfg.mtu (Body.cfg (.send h) rfl))
  | recv h => exact same (congrArg Cfg.mtu (Body.cfg (.recv h) rfl))
  | @input data pkt nd clk _ _ _ _ h =>
    have hb : Body k (.input data pkt nd clk) e := .input h
    exact same (congrArg Cfg.mtu (hb.cfg rfl))
  | wndSize a b =>
    refine same ?_
    unfold KCP.wndSize
    dsimp only
    split <;> split <;> rfl
  | noDelay a b c d =>
    refine same ?_
    unfold KCP.noDelay
    dsimp only
    split <;> split <;> split <;> split <;> rfl
  | @setMtu mtu r _ hs =>
    have hle := hop mtu rfl
    unfold KCP.setMtu at hs
    split at hs
    · cases hs
      exact hm
    · dsimp only at hs
      split at hs
      · cases hs
      · cases hs
        show (UInt32.ofNat (mtu % 2 ^ 32).toNat).toNat ≤ n
        rw [UInt32.toNat_ofNat']
        have : ((IKCP_OVERHEAD : Nat) : Int) = 24 := rfl
        omega
  | setStream on => exact hm
  | idle _ hs => exact same (congrArg Cfg.mtu hs.cfg)

/-- The stream mode changes by its setter only. -/
theorem Body.stream {op : Op} (h : Body k op e) (hop : ∀ on, op ≠ .setStream on) :
    e.stream = k.stream := by
  by_cases hc : op.configures = true
  · cases h with
    | wndSize a b =>
      unfold KCP.wndSize
      dsimp only
      split <;> split <;> rfl
    | noDelay a b c d =>
      unfold KCP.noDelay
      dsimp only
      split <;> split <;> split <;> split <;> rfl
    | setMtu hs => exact (KCP.setMtu_rest hs).2.2.2.2.1
    | setStream on => exact absurd rfl (hop on)
    | idle hidle hs => exact congrArg Cfg.stream hs.cfg
    | send hs => cases hc
    | recv hs => cases hc
    | input hs => cases hc
  · exact congrArg Cfg.stream (h.cfg (Bool.not_eq_true _ ▸ hc))

theorem Body.sndWnd {op : Op} (h : Body k op e) (hop : ∀ a b, op ≠ .wndSize a b) :
    e.sndWnd = k.sndWnd := by
  by_cases hc : op.configures = true
  · cases h with
    | wndSize a b => exact absurd rfl (hop a b)
    | noDelay a b c d =>
      unfold KCP.noDelay
      dsimp only
      split <;> split <;> split <;> split <;> rfl
    | setMtu hs => exact (KCP.setMtu_rest hs).2.2.2.2.2
    | setStream on => rfl
    | idle hidle hs => exact congrArg Cfg.sndWnd hs.cfg
    | send hs => cases hc
    | recv hs => cases hc
    | input hs => cases hc
  · exact congrArg Cfg.sndWnd (h.cfg (Bool.not_eq_true _ ▸ hc))

/-- Only `Send` queues anything. -/
theorem Body.queue {op : Op} (h : Body k op e) (hop : ∀ b, op ≠ .send b) : e.sndQueue = k.sndQueue := by
  cases h with
  | @send buffer _ _ hs => exact absurd rfl (hop buffer)
  | recv hs => exact congrArg Snd.queue (KCP.recv_rest hs).1
  | input hs =>
    rcases KCP.inputBody_spec hs with ⟨-, rfl, -⟩ | ⟨-, st, hl, hsame, -⟩
    · rfl
    · refine (congrArg Snd.queue hsame.snd).trans ?_
      refine KCP.inputLoop_keeps (P := fun k' => k'.sndQueue = k.sndQueue) (fun h _ k₁ k₂ _ hs hp => ?_) hl rfl
      have hq : k₂.snd.queue = k₁.snd.queue := by
        rw [hs.snd]
        split
        · unfold Snd.ack
          split <;> rfl
        · rfl
      exact hq.trans hp
  | wndSize a b => exact congrArg Snd.queue (KCP.wndSize_rest k a b).1
  | noDelay a b c d => exact congrArg Snd.queue (KCP.noDelay_rest k a b c d).2.1
  | setMtu hs => exact congrArg Snd.queue (KCP.setMtu_rest hs).2.1
  | setStream on => rfl
  | idle _ hs => exact congrArg Snd.queue hs.snd

/-- The configuration after an operation is that after its body. -/
theorem step_cfg {op : Op} {o : Out} (h : step k op = .ok (k', o)) :
    ∃ e, Body k op e ∧ k'.cfg = e.cfg := by
  obtain ⟨e, hb, hcase⟩ := step_split h
  refine ⟨e, hb, ?_⟩
  rcases hcase with ⟨rfl, -, -⟩ | ⟨-, ft, clk, nx, hf⟩
  · rfl
  · obtain ⟨m, hspec⟩ := KCP.flush_spec hf
    exact hspec.cfg

theorem step_send {buffer : Bytes} {o : Out} (h : step k (.send buffer) = .ok (k', o)) :
    k.send buffer = .ok (k', o.ret) := by
  obtain ⟨⟨e, r⟩, hs, h⟩ := Go.bind_ok h
  cases h
  exact hs

theorem step_recv {room : Nat} {o : Out} (h : step k (.recv room) = .ok (k', o)) :
    k.recv room = .ok (k', o.ret, o.data) := by
  obtain ⟨⟨e, r, d⟩, hs, h⟩ := Go.bind_ok h
  cases h
  exact hs

end KcpGo.L2
