import KcpGo.L2Machine.Resend
import KcpGo.L3Protocol.Deadlock
import KcpGo.L3Protocol.Delivery
import KcpGo.L3Protocol.FlowControl
import KcpGo.L3Protocol.Packets

/-!
# What is in flight gets through

Packets may be lost, but a sender with an unacknowledged segment recovers
from every state it can get into: full flushes of the two sides and the
arrival of what they send are enough, at any pace (`in_flight_gets_through`).

One round is a flush of the sender when the segment is due, the arrival of
the packet it is in, the answer, and the arrival of the answer. It brings
`snd_una` up to the peer's `rcv_nxt`; from then on the oldest segment in
flight is the one the peer waits for, and each further round advances both.
-/
namespace KcpGo.L3

open KcpGo.L1 KcpGo.L2 KcpGo.Serial
open KcpGo.Link (Ctrl Data Tx Rx TxStep WindowInv)

/-- A full flush or the arrival of a packet, at the time `n`. -/
def Ev.At (nd : Bool) (n : Nat) : Ev → Prop
  | .app _ op => op = .flush .full fun _ => u32 n
  | .deliver _ _ keep pkt d clk => keep = false ∧ pkt = .regular ∧ d = nd ∧ clk = fun _ => u32 n
  | .drop _ _ => False

/-- From `y` at `t` to `y'` at `t'` by flushes and arrivals; the time does
not go back. -/
inductive Later (M : LTS Sys Ev) (nd : Bool) (t : Nat) (y : Sys) : Nat → Sys → Prop where
  | refl : Later M nd t y t y
  | tail {t₁ t₂ : Nat} {y₁ y₂ : Sys} {e : Ev} (h : Later M nd t y t₁ y₁) (ht : t₁ ≤ t₂) (he : e.At nd t₂)
    (hs : M.step y₁ e y₂) : Later M nd t y t₂ y₂

theorem Later.trans {M : LTS Sys Ev} {nd : Bool} {t t₁ t₂ : Nat} {y y₁ y₂ : Sys} (h : Later M nd t y t₁ y₁)
    (h' : Later M nd t₁ y₁ t₂ y₂) : Later M nd t y t₂ y₂ := by
  induction h' with
  | refl => exact h
  | tail _ ht he hs ih => exact ih.tail ht he hs

theorem Later.reachable {M : LTS Sys Ev} {nd : Bool} {t t' : Nat} {y y' : Sys} (h : Later M nd t y t' y')
    (hr : M.Reachable y) : M.Reachable y' := by
  induction h with
  | refl => exact hr
  | tail _ _ _ hs ih => exact ih.step hs

/-! ## What a flush sends -/

/-- The receiver reads the segments that were written. -/
theorem encodeAll_reads : ∀ {vs ws : List Segment}, encodeAll vs = encodeAll ws → (encodeAll vs).length < 2 ^ 32 →
    vs.map Segment.head = ws.map Segment.head := by
  intro vs
  induction vs with
  | nil =>
    intro ws h _
    rw [encodeAll_eq_nil.mp h.symm]
  | cons v vs ih =>
    intro ws h hlen
    cases ws with
    | nil => exact absurd (encodeAll_eq_nil.mp h) (List.cons_ne_nil _ _)
    | cons w ws =>
      have hlen' : (encodeAll (w :: ws)).length < 2 ^ 32 := h ▸ hlen
      simp only [encodeAll_cons, Segment.wire, List.append_assoc, List.length_append] at h hlen hlen'
      have hhead : v.head = w.head := by
        rw [← readHeader_encode v (v.bytes ++ encodeAll vs), h, readHeader_encode]
      -- equal lengths on the wire are equal
      have hl : v.bytes.length = w.bytes.length :=
        u32_inj (congrArg Header.length hhead) (by omega) (by omega)
      obtain ⟨-, h2⟩ := List.append_inj h (by simp)
      obtain ⟨-, h3⟩ := List.append_inj h2 hl
      rw [List.map_cons, List.map_cons, hhead, ih h3 (by omega)]

section Flush

variable {k k' : KCP} {ft : FlushType} {clk : Clock} {out : List Bytes} {nx : UInt32}

/-- Everything pending is in some packet. -/
theorem pending_sent (hf : k.flush ft clk = .ok (k', out, nx)) {w : Segment} (hw : w ∈ k.pending ft clk) :
    ∃ ps, encodeAll ps ∈ out ∧ w ∈ ps := by
  obtain ⟨pss, hout, hflat, -⟩ := KCP.flush_packets hf
  rw [← hflat] at hw
  obtain ⟨ps, hps, hw⟩ := List.mem_flatten.mp hw
  have hmem : encodeAll ps ∈ out.filter (· ≠ []) := hout ▸ List.mem_map_of_mem hps
  exact ⟨ps, (List.mem_filter.mp hmem).1, hw⟩

/-- A segment that is due is in some packet. -/
theorem flush_resends {t : UInt32} (hf : k.flush .full (fun _ => t) = .ok (k', out, nx)) {s : Segment}
    (hs : s ∈ k.sndBuf) (hd : Due t s) : ∃ ps, encodeAll ps ∈ out ∧ ∃ w ∈ ps, w.cmd = s.cmd ∧ w.sn = s.sn := by
  obtain ⟨p, ts, wt, m, hfilled, -⟩ := k.filled_spec fun _ => t
  have hbuf : s ∈ (k.filled fun _ => t).1.sndBuf := by
    rw [hfilled]
    exact List.mem_append_left _ hs
  obtain ⟨j, hj, rfl⟩ := List.mem_iff_getElem.mp hbuf
  obtain ⟨hlen, hturns⟩ := List.forall₂_iff_get.mp (KCP.passes_turns (· = t) k (fun _ => t) fun _ => rfl)
  have hmem := List.get_mem (k.passes .full fun _ => t) ⟨j, by omega⟩
  have hturn := hturns j hj (by omega)
  generalize (k.passes .full fun _ => t).get _ = q at hmem hturn
  have hpush : q.2.isSome → q.1 ∈ k.pushSegs .full fun _ => t := by
    intro h
    rw [KCP.pushSegs_passes]
    exact List.mem_map_of_mem (List.mem_filter.mpr ⟨hmem, h⟩)
  cases hturn with
  | acked ha => exact absurd ha hd.1
  | waits ht ha hr => exact absurd (ht ▸ hr) hd.reason
  | @goes seg why now _ ht ha hr =>
    obtain ⟨ps, hps, hw⟩ := pending_sent hf (List.mem_append_right _ (hpush rfl))
    have hcore := KCP.rearm_core (k.filled fun _ => t).1 now ((k.filled fun _ => t).1.sndBuf.get ⟨j, hj⟩) why
    have hcmd := congrArg Segment.cmd hcore
    have hsn := congrArg Segment.sn hcore
    exact ⟨ps, hps, _, hw, hcmd, hsn⟩

/-- An acknowledgement that is due goes out with every flush. -/
theorem flush_answers (hf : k.flush ft clk = .ok (k', out, nx)) (ha : k.acklist ≠ []) :
    ∃ p ∈ out, 24 ≤ p.length := by
  have hne : k.ackSegs ≠ [] := fun h => KCP.pendingAcks_ne_nil ha (List.map_eq_nil_iff.mp h)
  obtain ⟨w, hw⟩ := List.exists_mem_of_ne_nil _ hne
  obtain ⟨ps, hps, hmem⟩ := pending_sent hf (List.mem_append_left _ (List.mem_append_left _ hw))
  refine ⟨_, hps, ?_⟩
  have h1 := encodeAll_length_ge ps
  have h2 := List.length_pos_of_mem hmem
  omega

end Flush

/-! ## What a packet brings -/

section Lands

variable {conv : UInt32} {F : Prop} {t₂ t t' t'' : KTx} {x₂ x x' x'' : Rx} {st : Counters} {wnd : UInt16} {k k' : KCP}

theorem Heard.trans (h : Heard conv F False t₂ x₂ t x st k t' x') (h' : Heard conv F False t₂ x₂ t' x' st k' t'' x'') :
    Heard conv F False t₂ x₂ t x st k' t'' x'' := by
  have h1 := h.una
  have h2 := h'.una
  exact ⟨h'.tied, h.tx.trans h'.tx, h.rx.trans h'.rx, h'.settled, h'.sent.trans h.sent, by omega,
    h'.taken.trans h.taken, h'.recent⟩

/-- What segments with the stamp `st` brought, from `k` to `k'`: the
sender knows the peer's `rcv_nxt`, and a receiver with a fixed window is to
acknowledge every PUSH. -/
structure Landed (conv : UInt32) (F : Prop) (t₂ : KTx) (x₂ : Rx) (t : KTx) (x : Rx) (st : Counters) (ws : List Segment)
    (k k' : KCP) (t' : KTx) (x' : Rx) : Prop where
  heard : Heard conv F False t₂ x₂ t x st k' t' x'
  una : ws ≠ [] → st.rcv ≤ t'.una
  acks : F → ∀ sn, sn ∈ k.acklist.map AckItem.sn ∨ (∃ w ∈ ws, w.cmd = IKCP_CMD_PUSH ∧ w.sn = sn) →
    sn ∈ k'.acklist.map AckItem.sn

/-- A PUSH inside the window is acknowledged. -/
theorem PushSpec.acklist {h : Header} {payload : Bytes} (hs : KCP.PushSpec k h payload k') (hin : InWindow k h) :
    k'.acklist = k.acklist ++ [⟨h.sn, h.ts⟩] := by
  cases hs with
  | beyond hb => exact absurd hin (Int32.not_lt.mpr hb)
  | old hb ho => rfl
  | repeated hb hn hr => rw [moveAll_acklist]; rfl
  | stored hb hn hr hl => rw [moveAll_acklist]; rfl

/-- What is to be acknowledged has arrived. -/
theorem Heard.has (h : Heard conv F False t₂ x₂ t x st k t' x') {hd : Header} {payload : Bytes} {d : Data}
    (hdata : DataRel t₂ hd payload d) (hf : t₂.una ≤ d.una + 2 ^ 30) (ha : hd.sn ∈ k.acklist.map AckItem.sn) :
    x'.Has d.idx := by
  rw [h.tied.rcv.acks] at ha
  obtain ⟨j, hj, he⟩ := List.mem_map.mp ha
  have hhas := (h.tied.bwd.acks j hj).1
  have h1 := h.tied.bwd.has_lt hhas
  have h2 := h.recent j hj
  have h3 := h.tied.bwd.win
  obtain ⟨h4, h5, -⟩ := hdata.near h.tied.bwd hf
  simp only [kcpBounds_age, kcpBounds_window] at h2 h3
  have hij : j = d.idx := u32_inj (he.trans hdata.sn) (by omega) (by omega)
  exact hij ▸ hhas

/-- One segment. -/
theorem Heard.lands {w : Segment} {pkt : PacketType} {n : Nat} (hn : n ≤ 65535)
    (h : Heard conv F False t₂ x₂ t x st k t x)
    (hs : KCP.SegSpec pkt w.head w.bytes k k') (hw : WireRel conv t₂ x₂ st wnd w)
    (hf : t₂.una ≤ st.una + 2 ^ 30 ∧ x₂.rcv ≤ st.rcv + 2 ^ 30) (hwin : F → WindowInv n t₂ x) :
    ∃ t' x', Landed conv F t₂ x₂ t x st [w] k k' t' x' := by
  obtain ⟨t', x', hh⟩ := h.seg hs hw hf (fun hO => hO.elim)
  have hpush : F → w.cmd = IKCP_CMD_PUSH → k'.acklist = k.acklist ++ [⟨w.sn, w.ts⟩] := by
    intro hF hp
    obtain ⟨k₁, hr₁, ha₁, hspec⟩ := hs.push hp
    have hin : itimediff w.head.sn (k₁.rcv.nxt + k₁.rcv.wnd) < 0 := by
      rw [hr₁]
      exact h.inWindow hn (hwin hF) hw hp hf.1
    rw [← ha₁]
    exact PushSpec.acklist hspec hin
  refine ⟨t', x', hh, fun _ => ?_, fun hF sn hsn => ?_⟩
  · -- the header moved `snd_una`
    obtain ⟨c, hc, hcu, hhead, hack⟩ := hw.ctrl
    obtain ⟨mark, htx⟩ := h.tied.hear pkt hc hhead (by rw [hcu]; exact hf.2) hack
    have hsnd : TxRel k'.snd (t.hear c (decide (pkt = .regular)) mark) := by
      rw [hs.snd]
      exact htx
    have heq : u32 (max t.una c.una) = u32 t'.una := hsnd.una.symm.trans hh.tied.snd.una
    have h1 := hh.una
    have h2 := (h.tied.fwd.ctrl c hc).1
    have h3 := h.tied.fwd.rcv_le
    have h4 := h.tied.fwd.win
    have h5 := hh.tx.grows.una
    simp only [kcpBounds_window] at h4
    have := u32_inj heq (by omega) (by omega)
    omega
  · by_cases hp : w.cmd = IKCP_CMD_PUSH
    · rw [hpush hF hp, List.map_append]
      rcases hsn with hsn | ⟨v, hv, -, rfl⟩
      · exact List.mem_append_left _ hsn
      · rw [List.mem_singleton.mp hv]
        exact List.mem_append_right _ (List.mem_singleton_self _)
    · rw [(hs.other hp).2]
      refine hsn.resolve_right ?_
      rintro ⟨v, hv, hvp, -⟩
      exact hp (List.mem_singleton.mp hv ▸ hvp)

/-- The segments of a packet. -/
theorem Heard.lands_all {pkt : PacketType} {n : Nat} (hn : n ≤ 65535)
    (hf : t₂.una ≤ st.una + 2 ^ 30 ∧ x₂.rcv ≤ st.rcv + 2 ^ 30) :
    ∀ {ws : List Segment} {l l' : InLoop} {t : KTx} {x : Rx}, Heard conv F False t₂ x₂ t x st l.k t x →
      KCP.inputSegs pkt ws l = .ok l' → (∀ w ∈ ws, WireRel conv t₂ x₂ st wnd w) →
      (F → WindowInv n t₂ x) → ∃ t' x', Landed conv F t₂ x₂ t x st ws l.k l'.k t' x' := by
  intro ws
  induction ws with
  | nil =>
    intro l l' t x h hs _ _
    cases hs
    exact ⟨t, x, h, fun hne => absurd rfl hne, fun _ sn hsn => hsn.resolve_right (by simp)⟩
  | cons w ws ih =>
    intro l l' t x h hs hws hwin
    obtain ⟨l₁, h1, hs⟩ := Go.bind_ok hs
    obtain ⟨t₁, x₁, a1⟩ := h.lands hn (KCP.inputSeg_spec h1) (hws w List.mem_cons_self) hf hwin
    have hb := a1.heard
    have hwin₁ : F → WindowInv n t₂ x₁ := fun hF => (windowInv_kept (O := False) hn hF).rxRun h.tied.bwd (hwin hF) hb.rx
    have start : Heard conv F False t₂ x₂ t₁ x₁ st l₁.k t₁ x₁ :=
      ⟨hb.tied, .refl, .refl, hb.settled, rfl, Nat.le_max_left _ _, rfl, hb.recent⟩
    obtain ⟨t', x', a2⟩ := ih start hs (fun v hv => hws v (List.mem_cons_of_mem _ hv)) hwin₁
    refine ⟨t', x', hb.trans a2.heard, fun _ => ?_, fun hF sn hsn => a2.acks hF sn ?_⟩
    · exact (a1.una (List.cons_ne_nil _ _)).trans a2.heard.tx.grows.una
    · rcases hsn with hsn | ⟨v, hv, hp⟩
      · exact .inl (a1.acks hF sn (.inl hsn))
      · rcases List.mem_cons.mp hv with rfl | hv
        · exact .inl (a1.acks hF sn (.inr ⟨v, List.mem_singleton_self _, hp⟩))
        · exact .inr ⟨v, hv, hp⟩

/-- A genuine packet. -/
theorem EndRel.lands {z : End} {n : Nat} (hn : n ≤ 65535) (h : EndRel conv F t₂ x₂ z t x) (hwin : F → WindowInv n t₂ x)
    {data : Bytes} (hp : Carries (WireRel conv t₂ x₂ st wnd) data) (hlen : 24 ≤ data.length)
    (hf : t₂.una ≤ st.una + 2 ^ 30 ∧ x₂.rcv ≤ st.rcv + 2 ^ 30) {pkt : PacketType} {clk clk' : Clock}
    {e : KCP} {ret : Option Int}
    {fl : Bool} (hi : z.kcp.inputBody data pkt clk = .ok (e, ret, fl, clk')) :
    ∃ ws t' x', data = encodeAll ws ∧ (∀ w ∈ ws, WireRel conv t₂ x₂ st wnd w) ∧
      Landed conv F t₂ x₂ t x st ws z.kcp e t' x' := by
  obtain ⟨ws, rfl, hws⟩ := hp
  rcases KCP.inputBody_spec hi with ⟨hshort, -, -⟩ | ⟨-, l, hloop, hsame, -⟩
  · exact absurd hlen (Nat.not_le.mpr hshort)
  have hlegal : ∀ w ∈ ws, KCP.Legal z.kcp.conv w := by
    intro w hw
    rw [h.tied.conv]
    exact (hws w hw).legal
  rw [KCP.inputLoop_encodeAll hlegal (length_le_encodeAll ws)] at hloop
  obtain ⟨l', hsegs, hloop⟩ := Go.bind_ok hloop
  cases hloop
  have start : Heard conv F False t₂ x₂ t x st z.kcp t x :=
    ⟨h.tied, .refl, .refl, h.settled, rfl, Nat.le_max_left _ _, rfl, h.tied.recent h.acks⟩
  obtain ⟨t', x', hland⟩ := Heard.lands_all hn hf start hsegs hws hwin
  have hh := hland.heard
  refine ⟨ws, t', x', rfl, hws, ⟨?_, hh.tx, hh.rx, hsame.rcv ▸ hh.settled, hh.sent, hh.una, hh.taken, hh.recent⟩,
    hland.una,
    hsame.acklist ▸ hland.acks⟩
  exact hh.tied.same hsame.snd hsame.rcv hsame.acklist (congrArg Cfg.conv hsame.cfg)

/-- The number expected next, once it has arrived, is not held back while
there is room. -/
theorem Landed.advances {ws : List Segment} {n : Nat} (h : Landed conv F t₂ x₂ t x st ws k k' t' x')
    (hl : LinkInv t₂ x) (hF : F)
    (hn : n ≤ 65535) (hwin : WindowInv n t₂ x) {w : Segment} (hw : w ∈ ws) (hp : w.cmd = IKCP_CMD_PUSH)
    (hwire : WireRel conv t₂ x₂ st wnd w) (hf : t₂.una ≤ st.una + 2 ^ 30) (hsn : w.sn = u32 x.rcv)
    (hroom : x.rcv < x.taken + n) :
    x.rcv < x'.rcv := by
  have hh := h.heard
  obtain ⟨d, hd, hdu⟩ := hwire.data hp
  rw [← hdu] at hf
  obtain ⟨h1, h2, -⟩ := hd.near hl hf
  have h3 := hl.win
  have h4 := hl.una_le
  have h5 := hl.rcv_le
  simp only [kcpBounds_window] at h3
  have hidx : d.idx = x.rcv := u32_inj (hd.sn.symm.trans hsn) (by omega) (by omega)
  have hgrow := hh.rx.grows.rcv
  rcases hh.has hd hf (h.acks hF w.sn (.inr ⟨w, hw, hp, rfl⟩)) with hlt | hmem
  · omega
  · have hle := (hh.tied.bwd.stored _ hmem).1
    have hset := hh.tied.rcv.settled hh.tied.bwd (hh.settled hF)
    have hwnd := ((windowInv_kept (O := False) hn hF).rxRun hl hwin hh.rx).wnd
    have htaken := hh.taken
    have := hset (by rwa [show x'.rcv = d.idx by omega])
    omega

/-- The counters follow the links, also through a flush. -/
theorem EndRel.counts {z : End} {e : KCP} (h : EndRel conv F t₂ x₂ z t x) (hh : Heard conv F False t₂ x₂ t x st e t' x')
    (hst : st.rcv = x₂.rcv) (hk : k'.sndUna = e.sndUna ∧ k'.rcvNxt = e.rcvNxt) (op : Op) (o : Out) :
    (z.after op k' o).cnt.una = t'.una ∧ (z.after op k' o).cnt.rcv = x'.rcv := by
  have h1 := hh.una
  have h2 := h.tied.fwd.rcv_le
  have h3 := h.tied.fwd.win
  have h4 := hh.tied.bwd.rcv_le
  have h5 := h.tied.bwd.win
  have h6 := h.tied.bwd.una_le
  simp only [kcpBounds_window] at h3 h5
  have hu := moved_u32 h.tied.snd.una (hk.1.trans hh.tied.snd.una) hh.tx.grows.una (by omega)
  have hr := moved_u32 h.tied.rcv.nxt (hk.2.trans hh.tied.rcv.nxt) hh.rx.grows.rcv (by omega)
  simp only [End.after, h.cnt]
  exact ⟨hu, hr⟩

end Lands

/-! ## The system -/

/-- `p` has just been sent to `s`. -/
structure Sys.Sent (y : Sys) (s : Side) (p : Pkt) : Prop where
  mem : p ∈ y.net s
  now : p.stamp = fun t => (y.ends t).cnt
  size : p.bytes.length ≤ maxPacketSize

theorem Sys.Sent.fresh {y : Sys} {s : Side} {p : Pkt} (h : y.Sent s p) : p.Fresh y := by
  intro t
  rw [h.now]
  exact ⟨Nat.le_add_right _ _, Nat.le_add_right _ _, Nat.le_add_right _ _⟩

/-- An operation that the control block of `s` can do, and what it sends. -/
theorem act_sends {z : Sys} {s : Side} {op : Op} {k' : KCP} {o : Out} (hs : L2.step (z.ends s).kcp op = .ok (k', o))
    (hz : Sendable maxPacketSize (z.ends s).kcp) (hop : ∀ m, op ≠ .setMtu m) : ∃ y', act z s op = some y' ∧
      y'.ends s = (z.ends s).after op k' o ∧ y'.ends s.peer = z.ends s.peer ∧
      ∀ b ∈ o.pkts, ∃ p, y'.Sent s.peer p ∧ p.bytes = b := by
  obtain ⟨y', hact⟩ : ∃ y', act z s op = some y' := by
    rw [act, hs]
    exact ⟨_, rfl⟩
  obtain ⟨k₁, o₁, hs₁, hself, hpeer, -, hnet⟩ := act_spec hact
  rw [hs] at hs₁
  cases hs₁
  refine ⟨y', hact, hself, hpeer, fun b hb => ⟨⟨b, fun t => (y'.ends t).cnt⟩, ⟨?_, rfl, ?_⟩, rfl⟩⟩
  · rw [hnet]
    exact List.mem_append_right _ (List.mem_map_of_mem hb)
  · exact ((hz.step (by decide) (fun m hm => absurd hm (hop m)) hs).2 b hb).1

/-- `p` carries data with the number `sn`. -/
def Pkt.Pushes (p : Pkt) (sn : UInt32) : Prop :=
  ∃ ws, p.bytes = encodeAll ws ∧ ∃ w ∈ ws, w.cmd = IKCP_CMD_PUSH ∧ w.sn = sn

section Round

variable {conv : UInt32} {c : Side → Setup} {a : Side} {y : Sys}

/-- Flushes and arrivals take nothing out, and no counter goes back. -/
theorem Later.keeps {b : Side} {nd : Bool} {t t' : Nat} {y' : Sys} (h : Later (fixedWindow conv c b) nd t y t' y')
    (u : Side) :
    (y'.ends u).popped = (y.ends u).popped ∧ (y.ends u).cnt.nxt ≤ (y'.ends u).cnt.nxt ∧
      (y.ends u).sent <+: (y'.ends u).sent := by
  induction h with
  | refl => exact ⟨rfl, Nat.le_refl _, List.prefix_rfl⟩
  | @tail _ _ y₁ y₂ e _ _ he hs ih =>
    obtain ⟨ih1, ih2, ih3⟩ := ih
    have hn : next y₁ e = some y₂ := hs.1.1
    obtain ⟨z, s, op, hact, hnone, hends⟩ : ∃ z s op, act z s op = some y₂ ∧
      (∀ k, consumed k op = []) ∧ z.ends = y₁.ends := by
      cases e with
      | app s op =>
        cases he
        exact ⟨_, _, _, hn, fun _ => rfl, rfl⟩
      | drop s i => exact he.elim
      | deliver s i keep pkt d clk =>
        obtain ⟨rfl, -⟩ := he
        simp only [next] at hn
        split at hn
        · cases hn
        · exact ⟨_, _, _, hn, fun _ => rfl, rfl⟩
    obtain ⟨k', o, -, hself, hpeer, -, -⟩ := act_spec hact
    rw [hends] at hself hpeer
    rcases Side.eq_or_peer s u with rfl | rfl
    · rw [hself]
      refine ⟨?_, ih2.trans (Nat.le_add_right _ _), ih3.trans (List.prefix_append _ _)⟩
      show _ ++ consumed _ op = _
      rw [hnone, List.append_nil, ih1]
    · rw [hpeer]
      exact ⟨ih1, ih2, ih3⟩

variable (hlo : 32 ≤ (c a.peer).rcvWnd.toNat) (hhi : (c a.peer).rcvWnd.toNat ≤ 65535)
include hlo hhi

/-- The endpoints refine links with the window of `a.peer`, and can flush. -/
theorem known (hr : (fixedWindow conv c a.peer).Reachable y) : ∃ T X, SysRel conv (· = a.peer) y T X ∧
      WindowInv (c a.peer).rcvWnd.toNat (T a) (X a.peer) ∧ ∀ u, Sendable maxPacketSize (y.ends u).kcp := by
  refine linked_reachable (O := fun _ => False)
    (J := fun ends T X => WindowInv (c a.peer).rcvWnd.toNat (T a) (X a.peer) ∧
    ∀ u, Sendable maxPacketSize (ends u).kcp) ⟨windowInv_fresh rfl hlo, fun u => ?_⟩ (fun hrel hacted hJ => ?_) y
    (fixedWindow_mode hr)
  · have h0 := sendable_newKCP conv
    exact ⟨h0.roomy.of_same rfl ⟨rfl, rfl, rfl⟩, h0.mss, h0.mtu, ⟨h0.fit.buf, h0.fit.queue⟩, h0.snd⟩
  · rename_i s op _ _ _ _ _
    refine ⟨hacted.link hrel (windowInv_kept hhi rfl) hJ.1, fun u => ?_⟩
    rcases Side.eq_or_peer s u with rfl | rfl
    · rw [hacted.self]
      refine ((hJ.2 u).step (by decide) ?_ hacted.step).1
      rintro m rfl
      rcases hacted.allowed with hop | ⟨_, _, _, _, hop⟩
      · exact of_decide_eq_true hop
      · cases hop
    · rw [hacted.peer]
      exact hJ.2 _

theorem flush_step (hr : (fixedWindow conv c a.peer).Reachable y) (s : Side) (n : Nat) :
    ∃ y' k' out nx, (fixedWindow conv c a.peer).step y (.app s (.flush .full fun _ => u32 n)) y' ∧
      (y.ends s).kcp.flush .full (fun _ => u32 n) = .ok (k', out, nx) ∧ y'.ends s.peer = y.ends s.peer ∧
      (y'.ends s).cnt.rcv = (y.ends s).cnt.rcv ∧ ∀ b ∈ out, ∃ p, y'.Sent s.peer p ∧ p.bytes = b := by
  obtain ⟨T, X, -, -, hsend⟩ := known hlo hhi hr
  obtain ⟨⟨k', out, nx⟩, hf⟩ := KCP.flush_ok (hsend s).roomy .full fun _ => u32 n
  have hstep : L2.step (y.ends s).kcp (.flush .full fun _ => u32 n) = .ok (k', ⟨nx.toNat, [], out⟩) := by
    rw [L2.step, hf, Go.ok_bind]
  obtain ⟨y', hact, hself, hpeer, hsent⟩ := act_sends hstep (hsend s) (by rintro m ⟨⟩)
  obtain ⟨m, hspec⟩ := KCP.flush_spec hf
  refine ⟨y', k', out, nx, ⟨⟨hact, trivial⟩, ?_⟩, hf, hpeer, ?_, hsent⟩
  · rintro op ⟨⟩
    trivial
  · have hnxt : k'.rcvNxt = (y.ends s).kcp.rcvNxt := congrArg Rcv.nxt hspec.rcv
    rw [hself]
    show (y.ends s).cnt.rcv + moved k'.rcvNxt (y.ends s).kcp.rcvNxt = _
    rw [hnxt, moved, UInt32.sub_self]
    rfl

/-- The arrival of a packet that has just been sent. -/
theorem deliver_step (hr : (fixedWindow conv c a.peer).Reachable y) {s : Side} {p : Pkt} (hp : y.Sent s p)
    (hlen : 24 ≤ p.bytes.length) (nd : Bool) (n : Nat) :
    ∃ e y', (fixedWindow conv c a.peer).step y e y' ∧ e.At nd n ∧ y'.ends s.peer = y.ends s.peer ∧
      (y.ends s.peer).cnt.rcv ≤ (y'.ends s).cnt.una ∧
      (s = a.peer → ∀ sn, p.Pushes sn →
        ((∃ q, y'.Sent s.peer q ∧ 24 ≤ q.bytes.length) ∨ (y'.ends s).kcp.acklist ≠ []) ∧
        (sn = u32 (y.ends s).cnt.rcv → (y.ends s).cnt.rcv < (y.ends s).popped.length + (c s).rcvWnd.toNat →
          (y.ends s).cnt.rcv < (y'.ends s).cnt.rcv)) := by
  obtain ⟨T, X, hrel, hwin, hsend⟩ := known hlo hhi hr
  obtain ⟨j, hj⟩ := List.getElem?_of_mem hp.mem
  obtain ⟨⟨k', ret, out⟩, hin⟩ := KCP.input_ok (hsend s).roomy (hsend s).mss hp.size .regular nd fun _ => u32 n
  have hs : L2.step ((y.remove s j).ends s).kcp (.input p.bytes .regular nd fun _ => u32 n) =
      .ok (k', ⟨ret, [], out⟩) := by
    rw [L2.step]
    show (KCP.input (y.ends s).kcp _ _ _ _ >>= _) = _
    rw [hin, Go.ok_bind]
  obtain ⟨y', hact, hself, hpeer, hsent⟩ := act_sends hs (hsend s) (by rintro m ⟨⟩)
  have hnext : next y (.deliver s j false .regular nd fun _ => u32 n) = some y' := by
    simp only [next, hj]
    exact hact
  have hend := hrel.ends s
  have hstamp : p.stamp s.peer = countersOf (T s.peer) (X s.peer) := by rw [hp.now]; exact (hrel.ends s.peer).cnt
  obtain ⟨e, hb, hcase⟩ := step_split hs
  obtain ⟨clk', ret', fl, hi⟩ : ∃ clk' ret' fl, (y.ends s).kcp.inputBody p.bytes .regular (fun _ => u32 n) =
      .ok (e, ret', fl, clk') := by
    cases hb with
    | input hi => exact ⟨_, _, _, hi⟩
    | idle hidle _ => cases hidle
  have hwin' : s = a.peer → WindowInv (c a.peer).rcvWnd.toNat (T s.peer) (X s) := by
    rintro rfl
    rwa [Side.peer_peer]
  obtain ⟨ws, t', x', hws, hwire, hland⟩ := hend.lands hhi hwin' (hrel.net s p hp.mem).carries hlen
    (by rw [hstamp]; exact ⟨Nat.le_add_right _ _, Nat.le_add_right _ _⟩) hi
  have hh := hland.heard
  have hfin : k'.sndUna = e.sndUna ∧ k'.rcvNxt = e.rcvNxt := by
    rcases hcase with ⟨rfl, -, -⟩ | ⟨-, ft, clk, nx, hf⟩
    · exact ⟨rfl, rfl⟩
    · obtain ⟨m, hspec⟩ := KCP.flush_spec hf
      exact ⟨congrArg Snd.una hspec.snd, congrArg Rcv.nxt hspec.rcv⟩
  obtain ⟨huna, hrcv⟩ := hend.counts hh (by rw [hstamp]; rfl) hfin (.input p.bytes .regular nd fun _ => u32 n)
    ⟨ret, [], out⟩
  replace hself : y'.ends s = (y.ends s).after _ k' _ := hself
  have hne : ws ≠ [] := by
    rintro rfl
    rw [hws] at hlen
    cases hlen
  refine ⟨_, y', ⟨⟨hnext, ?_⟩, by rintro op ⟨⟩⟩, ⟨rfl, rfl, rfl, rfl⟩, hpeer, ?_, ?_⟩
  · intro q hq
    rw [hj] at hq
    cases hq
    exact hp.fresh
  · rw [hself, huna, ← congrFun hp.now s.peer]
    exact hland.una hne
  · rintro rfl sn ⟨vs, hvs, v, hv, hcmd, hsn⟩
    obtain ⟨w, hw, hhead⟩ : ∃ w ∈ ws, w.head = v.head := by
      refine List.mem_map.mp (encodeAll_reads (hvs.symm.trans hws) ?_ ▸ List.mem_map_of_mem hv)
      rw [← hvs]
      exact Nat.lt_of_le_of_lt hp.size (by decide)
    have hcmd' : w.cmd = IKCP_CMD_PUSH := (congrArg Header.cmd hhead).trans hcmd
    have hsn' : w.sn = sn := (congrArg Header.sn hhead).trans hsn
    refine ⟨?_, fun hnext' hroom => ?_⟩
    · have hacks : e.acklist ≠ [] := by
        intro hnil
        have := hland.acks rfl w.sn (.inr ⟨w, hw, hcmd', rfl⟩)
        rw [hnil] at this
        cases this
      rcases hcase with ⟨rfl, -, -⟩ | ⟨-, ft, clk, nx, hf⟩
      · right
        rw [hself]
        exact hacks
      · left
        obtain ⟨b, hb', hl⟩ := flush_answers hf hacks
        obtain ⟨q, hq, rfl⟩ := hsent b hb'
        exact ⟨q, hq, hl⟩
    · rw [hself, hrcv]
      rw [hend.popped_length] at hroom
      rw [hend.cnt] at hnext' hroom ⊢
      exact hland.advances hend.tied.bwd rfl hhi (hwin' rfl) hw hcmd' (hwire w hw)
        (by rw [hstamp]; exact Nat.le_add_right _ _)
        (hsn'.trans hnext') hroom

/-- **One round.** A segment goes out again, and its acknowledgement comes
back: the sender knows what its peer expects next, and that is more than it
was if it was this segment. -/
theorem round (hr : (fixedWindow conv c a.peer).Reachable y) {s : Segment} (hs : s ∈ (y.ends a).kcp.sndBuf)
    (hlive : s.acked ≠ 1) (nd : Bool) (t₀ : Nat) :
    ∃ t₁ y', Later (fixedWindow conv c a.peer) nd t₀ y t₁ y' ∧ (y'.ends a.peer).cnt.rcv ≤ (y'.ends a).cnt.una ∧
      (s.sn = u32 (y.ends a.peer).cnt.rcv →
        (y.ends a.peer).cnt.rcv < (y.ends a.peer).popped.length + (c a.peer).rcvWnd.toNat →
        (y.ends a.peer).cnt.rcv < (y'.ends a.peer).cnt.rcv) := by
  -- the segment goes out when its time has come
  obtain ⟨n, hn, ht⟩ := exists_time t₀ s.resendts
  obtain ⟨y₁, k', out, nx, hstep₁, hf, hpeer₁, -, hout⟩ := flush_step hlo hhi hr a n
  have hdue : Due (u32 n) s := by
    refine ⟨hlive, .inr ?_⟩
    rw [ht, itimediff, diff_nonneg]
    simp
  obtain ⟨ps, hps, w, hw, hcmd, hsn⟩ := flush_resends hf hs hdue
  obtain ⟨p, hp, hbytes⟩ := hout _ hps
  obtain ⟨T, X, hrel, -, -⟩ := known hlo hhi hr
  have hpush : p.Pushes s.sn := ⟨ps, hbytes, w, hw, hcmd.trans ((hrel.ends a).tied.ok.cell hs).cmd, hsn⟩
  have hlen : 24 ≤ p.bytes.length := by
    rw [hbytes]
    have h1 := encodeAll_length_ge ps
    have h2 := List.length_pos_of_mem hw
    omega
  have hr₁ := hr.step hstep₁
  -- it arrives
  obtain ⟨e, y₂, hstep₂, hat, -, -, hgot⟩ := deliver_step hlo hhi hr₁ hp hlen nd n
  obtain ⟨hanswer, hadv⟩ := hgot rfl _ hpush
  rw [hpeer₁] at hadv
  have hl₂ : Later (fixedWindow conv c a.peer) nd t₀ y n y₂ :=
    (Later.refl.tail hn (e := .app a _) rfl hstep₁).tail (Nat.le_refl n) hat hstep₂
  -- the answer, at once or with the next flush
  obtain ⟨y₃, hl₃, hrcv, q, hq, hqlen⟩ : ∃ y₃, Later (fixedWindow conv c a.peer) nd t₀ y n y₃ ∧
      (y₃.ends a.peer).cnt.rcv = (y₂.ends a.peer).cnt.rcv ∧ ∃ q, y₃.Sent a.peer.peer q ∧ 24 ≤ q.bytes.length := by
    rcases hanswer with hanswer | hacks
    · exact ⟨y₂, hl₂, rfl, hanswer⟩
    · obtain ⟨y₃, k', out, nx, hstep₃, hf, -, hrcv, hout⟩ := flush_step hlo hhi (hl₂.reachable hr) a.peer n
      obtain ⟨b, hb, hblen⟩ := flush_answers hf hacks
      obtain ⟨q, hq, rfl⟩ := hout b hb
      exact ⟨y₃, hl₂.tail (e := .app a.peer _) (Nat.le_refl n) rfl hstep₃, hrcv, q, hq, hblen⟩
  rw [Side.peer_peer] at hq
  obtain ⟨e', y₄, hstep₄, hat', hpeer₄, huna, -⟩ := deliver_step hlo hhi (hl₃.reachable hr) hq hqlen nd n
  refine ⟨n, y₄, hl₃.tail (Nat.le_refl n) hat' hstep₄, ?_, fun hfirst hroom => ?_⟩
  · rw [hpeer₄]
    exact huna
  · rw [hpeer₄, hrcv]
    exact hadv hfirst hroom

/-- Rounds one after the other, once the sender knows what its peer expects
next: that is then the oldest segment in flight. -/
theorem rounds (N : Nat) (nd : Bool) : ∀ (m : Nat) {y : Sys} (t₀ : Nat), (fixedWindow conv c a.peer).Reachable y →
    (y.ends a.peer).cnt.rcv ≤ (y.ends a).cnt.una → N ≤ (y.ends a).cnt.nxt →
    N ≤ (y.ends a.peer).popped.length + (c a.peer).rcvWnd.toNat → N ≤ (y.ends a).cnt.una + m →
    ∃ t₁ y', Later (fixedWindow conv c a.peer) nd t₀ y t₁ y' ∧ N ≤ (y'.ends a).cnt.una := by
  intro m
  induction m with
  | zero => exact fun t₀ _ _ _ _ hm => ⟨t₀, _, .refl, hm⟩
  | succ m ih =>
    intro y t₀ hr hknown hnxt hroom hm
    by_cases hdone : N ≤ (y.ends a).cnt.una
    · exact ⟨t₀, y, .refl, hdone⟩
    obtain ⟨T, X, hrel, hwin, -⟩ := known hlo hhi hr
    have hend := hrel.ends a
    have hpeer := hrel.ends a.peer
    rw [Side.peer_peer] at hpeer
    have hle := hend.tied.fwd.una_le
    have hlen : (y.ends a).kcp.sndBuf.length + (T a).una = (T a).sent.length := by
      have := hend.tied.snd.len
      simpa [KCP.snd] using this
    rw [hpeer.popped_length] at hroom
    simp only [hend.cnt, hpeer.cnt, countersOf] at hknown hnxt hm hdone
    obtain ⟨s, hs⟩ : ∃ s, (y.ends a).kcp.sndBuf[0]? = some s := ⟨_, List.getElem?_eq_getElem (by omega)⟩
    have hcore : (y.ends a).kcp.snd.buf[0]? = some s.core := by simp [KCP.snd, hs]
    have hsn : s.core.sn = u32 (X a.peer).rcv := by
      rw [hend.tied.snd.sn hend.tied.ok hcore]
      congr 1
      omega
    -- acknowledged, it would have arrived, and would not be what the peer waits for
    have hlive : s.acked ≠ 1 := by
      intro hack
      have hset := hpeer.tied.rcv.settled hpeer.tied.bwd (hpeer.settled rfl)
      have hwnd := hwin.wnd
      rcases hend.tied.fwd.acked _ ((hend.tied.snd.cells 0 _ hcore).acked.mp hack) with hlt | hmem
      · omega
      · have := hset (by rwa [show (X a.peer).rcv = (T a).una + 0 by omega])
        omega
    obtain ⟨t₁, y₁, hl₁, hknown₁, hadv⟩ := round hlo hhi hr (List.mem_of_getElem? hs) hlive nd t₀
    obtain ⟨-, hnxt₁, -⟩ := hl₁.keeps a
    have hpop := (hl₁.keeps a.peer).1
    simp only [hend.cnt, hpeer.cnt, hpeer.popped_length, countersOf] at hadv hnxt₁ hpop
    have := hadv hsn (by omega)
    obtain ⟨t₂, y₂, hl₂, h2⟩ := ih t₁ (hl₁.reachable hr) hknown₁ (by omega)
      (by rw [hpop, hpeer.popped_length]; exact hroom) (by omega)
    exact ⟨t₂, y₂, hl₁.trans hl₂, h2⟩

end Round

/-- **What is in flight gets through.** The receive window of `a.peer` is
fixed, and what `a` has numbered fits in it beside what waits there for the
reader. From every such state with an unacknowledged segment, and from any
time on, full flushes and the arrival of packets lead to a state in which
everything numbered so far is acknowledged, and read or ready at the peer. -/
theorem in_flight_gets_through (conv : UInt32) (c : Side → Setup) (a : Side) (hlo : 32 ≤ (c a.peer).rcvWnd.toNat)
    (hhi : (c a.peer).rcvWnd.toNat ≤ 65535) (y : Sys) (hr : (fixedWindow conv c a.peer).Reachable y)
    (hlive : ∃ s ∈ (y.ends a).kcp.sndBuf, s.acked ≠ 1)
    (hroom : (y.ends a).cnt.nxt + (y.ends a.peer).kcp.rcvQueue.length ≤
      (y.ends a.peer).cnt.rcv + (c a.peer).rcvWnd.toNat) (nd : Bool) (t₀ : Nat) :
    ∃ t₁ y', Later (fixedWindow conv c a.peer) nd t₀ y t₁ y' ∧ (y.ends a).cnt.nxt ≤ (y'.ends a).cnt.una ∧
      (y.ends a).sent.map content <+: (y'.ends a.peer).popped.map content ++
        (y'.ends a.peer).kcp.rcvQueue.map content := by
  obtain ⟨s, hs, hne⟩ := hlive
  obtain ⟨T, X, hrel, -, -⟩ := known hlo hhi hr
  have hsent : (y.ends a).sent.length = (y.ends a).cnt.nxt := by
    rw [(hrel.ends a).cnt, ← List.length_map, (hrel.ends a).sent]
    rfl
  have hpop := (hrel.ends a.peer).popped_length
  have htaken := (hrel.ends a.peer).tied.bwd.taken
  have hqueue : (y.ends a.peer).kcp.rcvQueue.length = _ :=
    (hrel.ends a.peer).tied.rcv.queue_length (hrel.ends a.peer).tied.bwd
  have hrcv : (y.ends a.peer).cnt.rcv = (X a.peer).rcv := by rw [(hrel.ends a.peer).cnt]; rfl
  obtain ⟨t₁, y₁, hl₁, hknown, -⟩ := round hlo hhi hr hs hne nd t₀
  obtain ⟨t₂, y₂, hl₂, hdone⟩ := rounds hlo hhi (y.ends a).cnt.nxt nd _ t₁ (hl₁.reachable hr) hknown
    (hl₁.keeps a).2.1 (by rw [(hl₁.keeps a.peer).1]; omega) (Nat.le_add_left _ _)
  have hl := hl₁.trans hl₂
  refine ⟨t₂, y₂, hl, hdone, ?_⟩
  obtain ⟨T', X', hrel', -, -⟩ := known hlo hhi (hl.reachable hr)
  have huna : (y₂.ends a).cnt.una ≤ (y₂.ends a.peer).cnt.rcv := by
    rw [(hrel'.ends a).cnt, (hrel'.ends a.peer).cnt]
    exact (hrel'.ends a).tied.fwd.una_le
  rw [hrel'.received a, List.prefix_take_iff, List.length_map, hsent]
  exact ⟨(hl.keeps a).2.2.map content, hdone.trans huna⟩

/-- Of two packets the first is lost; the acknowledgement of the second is
not sent yet. -/
def lossyRun : List Ev :=
  [.app .A (.noDelay 0 10 0 1), .app .A (.setMtu 26), .app .A (.send [1]), .app .A (.send [2]),
    .app .A (.flush .full fun _ => 5),
    .deliver .B 1 false .regular false fun _ => 6, .drop .B 0]

theorem in_flight_gets_through_lossy : ∃ y, play (fixedEv .B) (initial 7 fun _ => {}) lossyRun = some y ∧
    (y.ends .A).cnt = ⟨0, 2, 0⟩ ∧ ∃ t₁ y', Later (fixedWindow 7 (fun _ => {}) .B) false 9 y t₁ y' ∧
      2 ≤ (y'.ends .A).cnt.una := by
  obtain ⟨y, hy, hcnt, hlive, hroom⟩ : ∃ y, play (fixedEv .B) (initial 7 fun _ => {}) lossyRun = some y ∧
      (y.ends .A).cnt = ⟨0, 2, 0⟩ ∧ (∃ s ∈ (y.ends .A).kcp.sndBuf, s.acked ≠ 1) ∧
      (y.ends .A).cnt.nxt + (y.ends .B).kcp.rcvQueue.length ≤ (y.ends .B).cnt.rcv + 32 :=
    ⟨_, rfl, by decide +kernel, by decide +kernel, by decide +kernel⟩
  obtain ⟨t₁, y', hl, hdone, -⟩ := in_flight_gets_through 7 (fun _ => {}) .A (by decide) (by decide) y
    ⟨_, lossyRun, rfl, LTS.play_run (fun _ _ _ => fixedWindow_step) hy⟩ hlive hroom false 9
  exact ⟨y, hy, hcnt, t₁, y', hl, by rwa [hcnt] at hdone⟩

end KcpGo.L3
