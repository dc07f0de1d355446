import KcpGo.L3Protocol.Endpoint

/-!
# The two endpoints refine two links

`SysRel y T X`: side `s` of the system is the sender `T s` of the link to its
peer and the receiver `X s` of the link from it; every packet on the way is
genuine; the ghost history is the links'.

* `SysRel.step`: an event is a run of link steps at one side.
* `link_reachable`: the induction rule for properties of a link. What the
  link keeps holds in every state the system reaches.
-/
namespace KcpGo.L3

open KcpGo.L1 KcpGo.L2 KcpGo.Serial
open KcpGo.Link (Ctrl Data Tx Rx TxStep RxStep TxRun RxRun)

/-- An endpoint and its ghost history. -/
structure EndRel (conv : UInt32) (F : Prop) (t₂ : KTx) (x₂ : Rx) (e : End) (t : KTx) (x : Rx) : Prop where
  tied : Tied conv t₂ x₂ e.kcp t x
  cnt : e.cnt = countersOf t x
  sent : e.sent.map content = t.sent
  numbers : Consec Segment.sn 0 e.sent
  popped : e.popped.map content = t₂.sent.take x.taken
  order : Consec Segment.sn 0 e.popped
  acks : e.kcp.acklist.length ≤ 61
  mtu : e.kcp.mtu.toNat ≤ 1472
  settled : F → Settled e.kcp.rcv

theorem EndRel.popped_length {conv : UInt32} {F : Prop} {t₂ t : KTx} {x₂ x : Rx} {e : End}
    (h : EndRel conv F t₂ x₂ e t x) : e.popped.length = x.taken := by
  have h1 := congrArg List.length h.popped
  have h2 := h.tied.bwd.taken
  have h3 := h.tied.bwd.rcv_le
  rw [List.length_map, List.length_take] at h1
  omega

/-! ## The ghost history -/

theorem moved_u32 {now before : UInt32} {a a' : Nat} (hb : before = u32 a) (hn : now = u32 a') (hle : a ≤ a')
    (hlt : a' < a + 2 ^ 32) : a + moved now before = a' := by
  rw [moved, hb, hn, sub_u32 hle (by omega)]
  omega

theorem messageSegs_prefix (q : List Segment) : KCP.messageSegs q <+: q := by
  induction q with
  | nil => exact List.prefix_rfl
  | cons s q ih =>
    rw [KCP.messageSegs]
    split
    · exact ⟨q, rfl⟩
    · exact (List.prefix_cons_inj s).mpr ih

theorem consumed_prefix (k : KCP) (op : Op) : consumed k op <+: k.rcvQueue := by
  cases op <;> simp only [consumed] <;> try exact List.nil_prefix
  split
  · exact messageSegs_prefix _
  · exact List.nil_prefix

section After

variable {conv : UInt32} {F O : Prop} {t₂ t t' : KTx} {x₂ x x' : Rx} {y : End} {op : Op} {e k' : KCP} {o : Out}

/-- The counters follow the links'. -/
theorem EndRel.cnt_after (h : EndRel conv F t₂ x₂ y t x) {n : Nat} {out : List Bytes}
    (hs : OpSim conv F O t₂ x₂ t x n e k' out t' x') : (y.after op k' o).cnt = countersOf t' x' := by
  have hg := hs.tx.grows
  have hgx := hs.rx.grows
  have hlen : t.sent.length ≤ t'.sent.length := hg.sent.length_le
  have h1 := h.tied.fwd.win
  have h2 := h.tied.fwd.rcv_le
  have h3 := h.tied.bwd.win
  have h4 := h.tied.bwd.una_le
  have h5 := hs.tied.fwd.una_le
  have h6 := hs.tied.fwd.win
  have h7 := hs.tied.bwd.rcv_le
  have h8 := hg.una
  have h9 := hgx.rcv
  have h10 := h.tied.fwd.una_le
  simp only [kcpBounds_window] at h1 h3 h6
  have e1 : t.una + moved k'.sndUna y.kcp.sndUna = t'.una :=
    moved_u32 h.tied.snd.una hs.tied.snd.una h8 (by omega)
  have e2 : t.sent.length + moved k'.sndNxt y.kcp.sndNxt = t'.sent.length :=
    moved_u32 (h.tied.snd.nxt h.tied.ok) (hs.tied.snd.nxt hs.tied.ok) hlen (by omega)
  have e3 : x.rcv + moved k'.rcvNxt y.kcp.rcvNxt = x'.rcv :=
    moved_u32 h.tied.rcv.nxt hs.tied.rcv.nxt h9 (by omega)
  show (⟨y.cnt.una + _, y.cnt.nxt + _, y.cnt.rcv + _⟩ : Counters) = _
  rw [h.cnt]
  simp only [countersOf, e1, e2, e3]

/-- The segments newly in the buffer are what was numbered. -/
theorem EndRel.sent_after (h : EndRel conv F t₂ x₂ y t x) {n : Nat} {out : List Bytes}
    (hs : OpSim conv F O t₂ x₂ t x n e k' out t' x') :
    (y.after op k' o).sent.map content = t'.sent ∧ Consec Segment.sn 0 (y.after op k' o).sent := by
  obtain ⟨ps, hps⟩ := hs.tx.grows.sent
  have hcnt : t.sent.length + moved k'.sndNxt y.kcp.sndNxt = t'.sent.length := by
    have hc' : (y.after op k' o).cnt = countersOf t' x' := h.cnt_after hs
    have hn := congrArg Counters.nxt hc'
    have hc := congrArg Counters.nxt h.cnt
    simp only [End.after, countersOf] at hn hc
    omega
  have hmoved : moved k'.sndNxt y.kcp.sndNxt = ps.length := by
    rw [← hps, List.length_append] at hcnt
    omega
  have hlen : k'.sndBuf.length + t'.una = t'.sent.length := by
    have := hs.tied.snd.len
    simpa [KCP.snd] using this
  have huna : t'.una ≤ t.sent.length := le_trans hs.tied.fwd.una_le h.tied.fwd.rcv_le
  have hps' : t'.sent.length = t.sent.length + ps.length := by rw [← hps, List.length_append]
  have hnew : (k'.sndBuf.drop (k'.sndBuf.length - ps.length)).map content = ps := by
    apply List.ext_getElem?
    intro i
    rw [List.getElem?_map, List.getElem?_drop]
    by_cases hi : i < ps.length
    · obtain ⟨s, hsj⟩ : ∃ s, k'.sndBuf[k'.sndBuf.length - ps.length + i]? = some s :=
        ⟨_, List.getElem?_eq_getElem (by omega)⟩
      have hcell := hs.tied.snd.cells (k'.sndBuf.length - ps.length + i) s.core (by simp [KCP.snd, hsj])
      have hidx : t'.una + (k'.sndBuf.length - ps.length + i) = t.sent.length + i := by omega
      rw [hidx] at hcell
      obtain ⟨p, hp, hfrg, hdata⟩ := hcell.payload
      -- a number the peer has never seen is not acknowledged
      have hlive : s.acked = 0 := by
        rcases (hs.tied.ok.cell (List.mem_of_getElem? hsj)).data with ⟨h1, -⟩ | ⟨h1, -⟩
        · exact h1
        · have hin := hs.tied.fwd.acked _ (hcell.acked.mp h1)
          have := h.tied.fwd.has_lt hin
          omega
      have hd : s.data = some p.2 := hdata hlive
      rw [← hps, List.getElem?_append_right (by omega), Nat.add_sub_cancel_left] at hp
      rw [hsj, hp]
      have hf : s.frg = p.1 := hfrg
      simp [content, Segment.bytes, hd, hf]
    · rw [List.getElem?_eq_none (l := ps) (by omega), List.getElem?_eq_none (by omega)]
      rfl
  have hsent : y.sent.length = t.sent.length := by rw [← h.sent, List.length_map]
  have hrun : Consec Segment.sn (u32 t.sent.length) (k'.sndBuf.drop (k'.sndBuf.length - ps.length)) := by
    rw [consec_iff]
    intro i s hi
    rw [List.getElem?_drop] at hi
    have hsn := hs.tied.snd.sn hs.tied.ok (j := k'.sndBuf.length - ps.length + i) (s := s.core) (by simp [KCP.snd, hi])
    obtain ⟨hlt, -⟩ := List.getElem?_eq_some_iff.mp hi
    rw [Segment.core_sn] at hsn
    rw [hsn, u32_add]
    congr 1
    omega
  show (y.sent ++ k'.sndBuf.drop (k'.sndBuf.length - moved k'.sndNxt y.kcp.sndNxt)).map content = t'.sent ∧
    Consec Segment.sn 0 (y.sent ++ k'.sndBuf.drop (k'.sndBuf.length - moved k'.sndNxt y.kcp.sndNxt))
  rw [hmoved]
  refine ⟨by rw [List.map_append, h.sent, hnew, hps], h.numbers.append ?_⟩
  have hz : (0 : UInt32) + u32 y.sent.length = u32 t.sent.length := by rw [hsent, UInt32.zero_add]
  rw [hz]
  exact hrun

theorem EndRel.popped_after (h : EndRel conv F t₂ x₂ y t x) {out : List Bytes}
    (hs : OpSim conv F O t₂ x₂ t x (consumed y.kcp op).length e k' out t' x') :
    (y.after op k' o).popped.map content = t₂.sent.take x'.taken ∧
      Consec Segment.sn 0 (y.after op k' o).popped := by
  obtain ⟨q, hq⟩ := consumed_prefix y.kcp op
  have hlen : (consumed y.kcp op).length ≤ x.rcv - x.taken := by
    have h1 : y.kcp.rcvQueue.length = x.rcv - x.taken := h.tied.rcv.queue_length h.tied.bwd
    rw [← hq, List.length_append] at h1
    omega
  have hpre : (consumed y.kcp op).map content =
      ((t₂.sent.take x.rcv).drop x.taken).take (consumed y.kcp op).length := by
    have h1 : y.kcp.rcvQueue.map content = (t₂.sent.take x.rcv).drop x.taken := h.tied.rcv.queue
    rw [← h1, ← hq, List.map_append, List.take_left' (by simp)]
  show (y.popped ++ consumed y.kcp op).map content = _ ∧ Consec Segment.sn 0 (y.popped ++ consumed y.kcp op)
  constructor
  · rw [List.map_append, h.popped, hpre, hs.taken, List.take_add]
    congr 1
    rw [List.drop_take, List.take_take, Nat.min_eq_left hlen]
  · refine h.order.append ?_
    have hord : Consec Segment.sn (u32 x.taken) y.kcp.rcvQueue := h.tied.rcv.order
    rw [h.popped_length, UInt32.zero_add, consec_iff]
    intro i s hi
    refine consec_iff.mp hord i s ?_
    obtain ⟨hlt, -⟩ := List.getElem?_eq_some_iff.mp hi
    rw [← hq, List.getElem?_append_left hlt]
    exact hi

/-- The endpoint after an operation. -/
theorem EndRel.after (h : EndRel conv F t₂ x₂ y t x) {out : List Bytes}
    (hs : OpSim conv F O t₂ x₂ t x (consumed y.kcp op).length e k' out t' x') (hm : k'.mtu.toNat ≤ 1472) :
    EndRel conv F t₂ x₂ (y.after op k' o) t' x' :=
  ⟨hs.tied, h.cnt_after hs, (h.sent_after hs).1, (h.sent_after hs).2, (h.popped_after hs).1, (h.popped_after hs).2,
    hs.acks, hm, hs.settled⟩

/-- The endpoint while its peer moved on. -/
theorem EndRel.peer {t₂' : KTx} {x₂' : Rx} (h : EndRel conv F t₂ x₂ y t x) (hg : t₂.Grows t₂')
    (hf : LinkInv t x₂') (hb : LinkInv t₂' x) : EndRel conv F t₂' x₂' y t x := by
  have hr := h.tied.rcv.grows h.tied.bwd hg
  refine ⟨⟨h.tied.conv, h.tied.ok, h.tied.snd, hr, hf, hb⟩, h.cnt, h.sent, h.numbers, ?_, h.order, h.acks, h.mtu,
    h.settled⟩
  obtain ⟨l, hl⟩ := hg.sent
  have h1 := h.tied.bwd.taken
  have h2 := h.tied.bwd.rcv_le
  rw [h.popped, ← hl, List.take_append_of_le_length (by omega)]

end After

/-! ## The system -/

/-- `op` is what an application may call or the arrival of a packet. -/
def Allowed (op : Op) : Prop := appOp op = true ∨ ∃ data pkt nd clk, op = .input data pkt nd clk

theorem step_mtu {k k' : KCP} {op : Op} {o : Out} (h : step k op = .ok (k', o)) (hop : Allowed op)
    (hm : k.mtu.toNat ≤ 1472) : k'.mtu.toNat ≤ 1472 := by
  obtain ⟨e, hb, hcfg⟩ := step_cfg h
  have hk : k'.mtu = e.mtu := congrArg Cfg.mtu hcfg
  rw [hk]
  refine hb.mtu_le (fun m hm => ?_) hm
  subst hm
  rcases hop with hop | ⟨_, _, _, _, hop⟩
  · simpa [appOp] using hop
  · cases hop

section System

variable (conv : UInt32) (F O : Side → Prop)

structure SysRel (y : Sys) (T : Side → KTx) (X : Side → Rx) : Prop where
  ends : ∀ s, EndRel conv (F s) (T s.peer) (X s.peer) (y.ends s) (T s) (X s)
  net : ∀ s, ∀ p ∈ y.net s, PktRel conv (T s.peer) (X s.peer) (p.stamp s.peer) p.bytes

/-- One side did `op`: `e` is the state between its body and its flush. -/
structure Acted (y y' : Sys) (T : Side → KTx) (X : Side → Rx) (s : Side) (op : Op) (e k' : KCP) (o : Out)
    (t' : KTx) (x' : Rx) : Prop where
  step : L2.step (y.ends s).kcp op = .ok (k', o)
  allowed : Allowed op
  body : Body (y.ends s).kcp op e
  self : y'.ends s = (y.ends s).after op k' o
  peer : y'.ends s.peer = y.ends s.peer
  sim : OpSim conv (F s) (O s) (T s.peer) (X s.peer) (T s) (X s) (consumed (y.ends s).kcp op).length e k' o.pkts
    t' x'

variable {conv F O} {y y' : Sys} {T : Side → KTx} {X : Side → Rx}

theorem SysRel.remove (h : SysRel conv F y T X) (s : Side) (i : Nat) : SysRel conv F (y.remove s i) T X := by
  refine ⟨h.ends, fun u p hp => ?_⟩
  by_cases hu : u = s
  · subst hu
    simp only [Sys.remove, Function.update_self] at hp
    exact h.net u p (List.mem_of_mem_eraseIdx hp)
  · simp only [Sys.remove, Function.update_of_ne hu] at hp
    exact h.net u p hp

theorem SysRel.act (h : SysRel conv F y T X) {s : Side} {op : Op} (ha : act y s op = some y') (hop : Allowed op)
    (hbody : ∀ e, Body (y.ends s).kcp op e →
      (∃ t' x', BodySim conv (F s) (O s) (T s.peer) (X s.peer) (T s) (X s) (consumed (y.ends s).kcp op).length e
        t' x') ∧ (flushEntry (y.ends s).kcp op = none → e.acklist.length ≤ 61)) :
    ∃ e k' o t' x', Acted conv F O y y' T X s op e k' o t' x' ∧
      SysRel conv F y' (Function.update T s t') (Function.update X s x') := by
  obtain ⟨k', o, hstep, hself, hpeer, hnet, hnet'⟩ := act_spec ha
  obtain ⟨e, t', x', hb, hsim⟩ := opSim_of_body hstep hbody
  have hend := h.ends s
  have hself' : EndRel conv (F s) (T s.peer) (X s.peer) (y'.ends s) t' x' :=
    hself ▸ hend.after hsim (step_mtu hstep hop hend.mtu)
  refine ⟨e, k', o, t', x', ⟨hstep, hop, hb, hself, hpeer, hsim⟩, fun u => ?_, fun u p hp => ?_⟩
  · rcases Side.eq_or_peer s u with rfl | rfl
    · simpa using hself'
    · have hp := h.ends s.peer
      rw [Side.peer_peer] at hp
      have := hp.peer hsim.tx.grows hsim.tied.bwd hsim.tied.fwd
      simpa [hpeer] using this
  · rcases Side.eq_or_peer s u with rfl | rfl
    · -- packets on the way to the side that acted: sent by its peer
      rw [hnet] at hp
      simpa using h.net u p hp
    · rw [hnet'] at hp
      simp only [Side.peer_peer, Function.update_self]
      rcases List.mem_append.mp hp with hp | hp
      · have := h.net s.peer p hp
        rw [Side.peer_peer] at this
        exact this.grows hsim.tx.grows hsim.rx.grows
      · obtain ⟨b, hb', rfl⟩ := List.mem_map.mp hp
        show PktRel conv t' x' (y'.ends s).cnt b
        rw [hself'.cnt]
        exact hsim.packets b hb'

/-! ## Events -/

/-- What the modes of a run exclude: with `F s` the receive window of `s`
does not change; with `O s` everything `s` hears is regular and does not
reopen its window from the past. -/
def InMode (F O : Side → Prop) (y : Sys) : Ev → Prop
  | .app s op => F s → KeepsWnd op
  | .deliver s i _ pkt _ _ => O s → pkt = .regular ∧ ∀ p, (y.net s)[i]? = some p →
    (readHeader p.bytes).wnd ≠ 0 → (y.ends s).cnt.una ≤ (p.stamp s.peer).rcv
  | .drop _ _ => True

/-- All segments of a packet advertise the window of the first. -/
theorem PktRel.carries {t : KTx} {x : Rx} {st : Counters} {p : Bytes} (h : PktRel conv t x st p) :
    Carries (WireRel conv t x st (readHeader p).wnd) p := by
  obtain ⟨wnd, ws, rfl, hws⟩ := h
  refine ⟨ws, rfl, fun w hw => ?_⟩
  cases ws with
  | nil => cases hw
  | cons v ws =>
    have hread : readHeader (encodeAll (v :: ws)) = v.head := by
      rw [encodeAll_cons, Segment.wire, List.append_assoc]
      exact readHeader_encode v _
    have hv : v.head.wnd = wnd := (hws v List.mem_cons_self).wnd
    rw [hread, hv]
    exact hws w hw

/-- The operation an event stands for. -/
inductive Ev.Calls : Ev → Side → Op → Prop where
  | app (s : Side) (op : Op) : Calls (.app s op) s op
  | deliver (s : Side) (i : Nat) (keep : Bool) (data : Bytes) (pkt : PacketType) (nd : Bool) (clk : Clock) :
    Calls (.deliver s i keep pkt nd clk) s (.input data pkt nd clk)

/-- **An event is a run of link steps at one side.** -/
theorem SysRel.step (h : SysRel conv F y T X) {e : Ev} (hn : next y e = some y') (hfr : FreshStep y e y')
    (hm : InMode F O y e) :
    (y'.ends = y.ends ∧ SysRel conv F y' T X) ∨
      ∃ s op k₁ k' o t' x', e.Calls s op ∧ Acted conv F O y y' T X s op k₁ k' o t' x' ∧
        SysRel conv F y' (Function.update T s t') (Function.update X s x') := by
  cases e with
  | app s op =>
    right
    simp only [next] at hn
    split at hn
    · rename_i hop
      have hend := h.ends s
      obtain ⟨k₁, k', o, t', x', hacted⟩ := h.act (O := O) hn (.inl hop) fun k₁ hb =>
        hend.tied.local hb hop hm hend.settled hend.acks
      exact ⟨s, op, k₁, k', o, t', x', .app s op, hacted⟩
    · cases hn
  | drop s i =>
    cases hn
    exact .inl ⟨rfl, h.remove s i⟩
  | deliver s i keep pkt nd clk =>
    right
    simp only [next] at hn
    split at hn
    · cases hn
    · rename_i p hp
      have hfresh := hfr p hp
      have hpeer := h.ends s.peer
      have hend := h.ends s
      -- the packet stays or leaves; the endpoints are the same
      have hy : SysRel conv F (if keep then y else y.remove s i) T X ∧
          (if keep then y else y.remove s i).ends = y.ends := by
        cases keep
        · exact ⟨h.remove s i, rfl⟩
        · exact ⟨h, rfl⟩
      generalize (if keep then y else y.remove s i) = y₁ at hn hy
      obtain ⟨hy, hends⟩ := hy
      have hcnt : (y.ends s.peer).cnt = countersOf (T s.peer) (X s.peer) := hpeer.cnt
      have hcnt' : (y.ends s).cnt = countersOf (T s) (X s) := hend.cnt
      have hbody : ∀ k₁, Body (y.ends s).kcp (.input p.bytes pkt nd clk) k₁ →
          (∃ t' x', BodySim conv (F s) (O s) (T s.peer) (X s.peer) (T s) (X s) 0 k₁ t' x') ∧
            (flushEntry (y.ends s).kcp (.input p.bytes pkt nd clk) = none → k₁.acklist.length ≤ 61) := by
        intro k₁ hb
        refine hend.tied.deliver (F := F s) (O := O s) hb (h.net s p (List.mem_of_getElem? hp)).carries ?_ ?_
          hend.settled hend.acks hend.mtu
        · have h1 := hfresh s.peer
          rw [hcnt] at h1
          exact ⟨h1.1, h1.2.2⟩
        · intro hO
          obtain ⟨hreg, hopen⟩ := hm hO
          refine ⟨hreg, fun hw => ?_⟩
          have := hopen p hp hw
          rw [hcnt'] at this
          exact this
      obtain ⟨k₁, k', o, t', x', hacted, hrel⟩ := hy.act hn (.inr ⟨_, _, _, _, rfl⟩) 
        (by rw [hends]; exact hbody)
      refine ⟨s, _, k₁, k', o, t', x', .deliver s i keep _ _ _ _, ⟨?_, hacted.allowed, ?_, ?_, ?_, ?_⟩, hrel⟩
      · exact hends ▸ hacted.step
      · exact hends ▸ hacted.body
      · exact hends ▸ hacted.self
      · exact hends ▸ hacted.peer
      · exact hends ▸ hacted.sim

end System

/-! ## Reachable states -/

/-- The links before any traffic. -/
def freshTx : KTx := ⟨[], 0, ∅, IKCP_WND_RCV.toNat, ∅⟩

def freshRx (c : Setup) : Rx := ⟨0, 0, c.rcvWnd.toNat, ∅, [], ∅⟩

theorem linkInv_fresh (c : Setup) : LinkInv freshTx (freshRx c) := by
  have hrmt : freshTx.rmtWnd ≤ kcpBounds.window := by decide
  refine ⟨Nat.le_refl _, Nat.le_refl _, Nat.zero_le _, hrmt, Nat.le_refl _, ?_, ?_, ?_, ?_, ?_⟩
  · intro i hi
    cases hi
  · intro i hi
    cases hi
  · intro i hi
    cases hi
  · intro d hd
    cases hd
  · intro d hd
    cases hd

theorem sysRel_initial (conv : UInt32) (F : Side → Prop) (c : Side → Setup) :
    SysRel conv F (initial conv c) (fun _ => freshTx) (fun s => freshRx (c s)) := by
  have hset : ∀ s, Settled ((c s).kcp conv).rcv := fun s => .inr rfl
  refine ⟨fun s => ⟨⟨rfl, ?_, ?_, ?_, linkInv_fresh _, linkInv_fresh _⟩, rfl, rfl, trivial, rfl, trivial,
    Nat.zero_le _, ?_, fun _ => hset s⟩,
    fun s p hp => by cases hp⟩
  · exact sndOk_newKCP conv
  · exact ⟨rfl, rfl, rfl, fun j s hs => by cases hs⟩
  · refine ⟨rfl, rfl, rfl, trivial, SegHeap.inv_empty _ _, ?_, ?_, rfl⟩
    · intro s hs
      cases hs
    · intro i hi
      cases hi
  · show IKCP_MTU_DEF.toNat ≤ 1472
    decide

/-- The fresh runs that keep to the modes `F` and `O`. -/
def modeSystem (conv : UInt32) (c : Side → Setup) (F O : Side → Prop) : LTS Sys Ev :=
  (freshSystem conv c).restrict fun y e _ => InMode F O y e

/-- Without modes these are all fresh runs. -/
theorem modeSystem_reachable {conv : UInt32} {c : Side → Setup} {y : Sys} (h : (freshSystem conv c).Reachable y) :
    (modeSystem conv c (fun _ => False) (fun _ => False)).Reachable y := by
  refine LTS.Reachable.mono (M := freshSystem conv c) (N := modeSystem conv c (fun _ => False) (fun _ => False))
    (fun _ hi => hi) (fun y e y' hs => ⟨hs, ?_⟩) h
  cases e with
  | app s op => exact fun hF => hF.elim
  | deliver s i keep pkt nd clk => exact fun hO => hO.elim
  | drop s i => trivial

section Reach

variable {conv : UInt32} {c : Side → Setup} {F O : Side → Prop}

/-- **Induction over the system through its links**: what holds at the start
and every operation keeps holds in every reachable state, next to links that
the system refines. -/
theorem linked_restrict {A : Sys → Ev → Sys → Prop} {J : (Side → End) → (Side → KTx) → (Side → Rx) → Prop}
    (hinit : J (initial conv c).ends (fun _ => freshTx) (fun s => freshRx (c s)))
    (hact : ∀ {y y' T X l s op e k' o t' x'}, A y l y' → l.Calls s op → SysRel conv F y T X →
      Acted conv F O y y' T X s op e k' o t' x' → J y.ends T X →
      J y'.ends (Function.update T s t') (Function.update X s x')) :
    ∀ y, ((modeSystem conv c F O).restrict A).Reachable y → ∃ T X, SysRel conv F y T X ∧ J y.ends T X := by
  refine LTS.Inductive.reachable ⟨?_, ?_⟩
  · rintro y rfl
    exact ⟨_, _, sysRel_initial conv F c, hinit⟩
  · rintro y e y' ⟨T, X, hrel, hJ⟩ ⟨⟨⟨hn, hfr⟩, hm⟩, hA⟩
    rcases hrel.step hn hfr hm with ⟨hends, hrel'⟩ | ⟨s, op, k₁, k', o, t', x', hcalls, hacted, hrel'⟩
    · exact ⟨T, X, hrel', hends ▸ hJ⟩
    · exact ⟨_, _, hrel', hact hA hcalls hrel hacted hJ⟩

theorem linked_reachable {J : (Side → End) → (Side → KTx) → (Side → Rx) → Prop}
    (hinit : J (initial conv c).ends (fun _ => freshTx) (fun s => freshRx (c s)))
    (hact : ∀ {y y' T X s op e k' o t' x'}, SysRel conv F y T X → Acted conv F O y y' T X s op e k' o t' x' →
      J y.ends T X → J y'.ends (Function.update T s t') (Function.update X s x')) :
    ∀ y, (modeSystem conv c F O).Reachable y → ∃ T X, SysRel conv F y T X ∧ J y.ends T X := by
  intro y hr
  refine linked_restrict (A := fun _ _ _ => True) hinit (fun _ _ => hact) y ?_
  exact LTS.Reachable.mono (M := modeSystem conv c F O) (N := (modeSystem conv c F O).restrict fun _ _ _ => True)
    (fun _ hi => hi) (fun _ _ _ hs => ⟨hs, trivial⟩) hr

/-- A property of a link that its steps keep. -/
structure LinkKept (F O : Prop) (J : KTx → Rx → Prop) : Prop where
  tx : ∀ {t t' x}, LinkInv t x → J t x → TxStep kcpBounds O x t t' → J t' x
  rx : ∀ {t x x'}, LinkInv t x → J t x → RxStep kcpBounds F t x x' → J t x'

theorem LinkKept.txRun {F O : Prop} {J : KTx → Rx → Prop} (h : LinkKept F O J) {t t' : KTx} {x : Rx}
    (hl : LinkInv t x) (hJ : J t x) (hr : TxRun kcpBounds O x t t') : J t' x := by
  induction hr with
  | refl => exact hJ
  | tail hrun hs ih => exact h.tx (hl.txRun hrun) ih hs

theorem LinkKept.rxRun {F O : Prop} {J : KTx → Rx → Prop} (h : LinkKept F O J) {t : KTx} {x x' : Rx}
    (hl : LinkInv t x) (hJ : J t x) (hr : RxRun kcpBounds F t x x') : J t x' := by
  induction hr with
  | refl => exact hJ
  | tail hrun hs ih => exact h.rx (hl.rxRun hrun) ih hs

/-- The link from `a` to its peer keeps it through an operation of either. -/
theorem Acted.link {y y' : Sys} {T : Side → KTx} {X : Side → Rx} {s a : Side} {op : Op} {e k' : KCP} {o : Out}
    {t' : KTx} {x' : Rx} {J : KTx → Rx → Prop} (hrel : SysRel conv F y T X)
    (h : Acted conv F O y y' T X s op e k' o t' x') (hk : LinkKept (F a.peer) (O a) J) (hJ : J (T a) (X a.peer)) :
    J (Function.update T s t' a) (Function.update X s x' a.peer) := by
  have hfwd := (hrel.ends a).tied.fwd
  rcases Side.eq_or_peer a s with rfl | rfl
  · simp only [Function.update_self, Function.update_of_ne (Side.peer_ne s)]
    exact hk.txRun hfwd hJ h.sim.tx
  · simp only [Function.update_self, Function.update_of_ne (Side.ne_peer a)]
    have hrx := h.sim.rx
    rw [Side.peer_peer] at hrx
    exact hk.rxRun hfwd hJ hrx

/-- What the link from `a` keeps holds in every reachable state. -/
theorem link_reachable {a : Side} {J : KTx → Rx → Prop} (hk : LinkKept (F a.peer) (O a) J)
    (hinit : J freshTx (freshRx (c a.peer))) :
    ∀ y, (modeSystem conv c F O).Reachable y → ∃ T X, SysRel conv F y T X ∧ J (T a) (X a.peer) :=
  linked_reachable (J := fun _ T X => J (T a) (X a.peer)) hinit fun hrel hacted hJ => hacted.link hrel hk hJ

end Reach

end KcpGo.L3
