import KcpGo.L3Protocol.Framing
import KcpGo.L3Protocol.Refine

/-!
# End-to-end ordered delivery

What `Recv` returns on one side is, in order, what `Send` accepted on the
other (`ordered_delivery`): message by message in message mode, byte by byte
in stream mode.

The links give the order of segments: everything the receiver has taken or
queued is an initial part of what the sender numbered. `Delivered` adds the
framing on top: what the sender has numbered or queued, after what was read,
is the fragments of the messages not yet read. So when the sender has nothing
left, everything has arrived (`drained_delivered`).
-/
namespace KcpGo.L3

open KcpGo.L1 KcpGo.L2 KcpGo.Serial
open KcpGo.Link (Rx)

/-- The messages of `a` and what was read of them at `b`. -/
structure Delivered (mode : Int32) (a b : End) : Prop where
  stream : a.kcp.stream = mode
  read : b.reads.flatten = b.popped.flatMap Segment.bytes
  streamed : mode ≠ 0 → a.refused = false →
    (a.sent ++ a.kcp.sndQueue).flatMap Segment.bytes = a.msgs.flatten
  framed : mode = 0 → ∃ rest fss, a.msgs = b.reads ++ rest ∧ List.Forall₂ Framed rest fss ∧
    (a.sent ++ a.kcp.sndQueue).map content = b.popped.map content ++ fss.flatten

theorem flatMap_bytes (l : List Segment) : l.flatMap Segment.bytes = (l.map content).flatMap Prod.snd := by
  rw [List.flatMap_map]
  rfl

/-- What was taken or queued is an initial part of what was numbered. -/
theorem EndRel.prefix_read {conv : UInt32} {F : Prop} {t₂ t : KTx} {x₂ x : Rx} {b : End}
    (h : EndRel conv F t₂ x₂ b t x) : b.popped.map content ++ b.kcp.rcvQueue.map content <+: t₂.sent := by
  have hq : b.kcp.rcvQueue.map content = (t₂.sent.take x.rcv).drop x.taken := h.tied.rcv.queue
  have hle := h.tied.bwd.taken
  have hcat : t₂.sent.take x.taken ++ (t₂.sent.take x.rcv).drop x.taken = t₂.sent.take x.rcv := by
    conv_rhs => rw [← List.take_append_drop x.taken (t₂.sent.take x.rcv)]
    rw [List.take_take, Nat.min_eq_left hle]
  rw [h.popped, hq, hcat]
  exact List.take_prefix _ _

/-! ## The sender acts -/

/-- The ghost lists of an operation that is no `Send`. -/
theorem after_msgs {x : End} {op : Op} {k : KCP} {o : Out} (hop : ∀ b, op ≠ .send b) :
    (x.after op k o).msgs = x.msgs ∧ (x.after op k o).refused = x.refused := by
  cases op with
  | send b => exact absurd rfl (hop b)
  | _ => exact ⟨rfl, rfl⟩

theorem step_stream {k k' : KCP} {op : Op} {o : Out} (hs : step k op = .ok (k', o)) (hop : Allowed op) :
    k'.stream = k.stream := by
  obtain ⟨e, hb, hcfg⟩ := step_cfg hs
  have hne : ∀ on, op ≠ .setStream on := by
    rintro on rfl
    rcases hop with hop | ⟨_, _, _, _, hop⟩ <;> cases hop
  exact (congrArg Cfg.stream hcfg).trans (hb.stream hne)

theorem Delivered.sender {mode : Int32} {a b : End} {op : Op} {e k' : KCP} {o : Out}
    (h : Delivered mode a b) (hs : step a.kcp op = .ok (k', o)) (hop : Allowed op) (hb : Body a.kcp op e)
    (hq : (a.after op k' o).sent.map content ++ k'.sndQueue.map content =
      a.sent.map content ++ e.sndQueue.map content) : Delivered mode (a.after op k' o) b := by
  have hstream : k'.stream = mode := (step_stream hs hop).trans h.stream
  have hcat : ∀ {l : List Payload}, a.sent.map content ++ e.sndQueue.map content = l →
      ((a.after op k' o).sent ++ (a.after op k' o).kcp.sndQueue).map content = l := by
    intro l hl
    rw [List.map_append, ← hl]
    exact hq
  by_cases hsend : ∃ buffer, op = .send buffer
  · obtain ⟨buffer, rfl⟩ := hsend
    have hsnd := step_send hs
    have he : k' = e := by
      cases hb with
      | send h' =>
        rw [hsnd] at h'
        cases h'
        rfl
      | idle hidle => cases hidle
    subst he
    obtain ⟨hmsg, hstr⟩ := send_frames hsnd
    rw [h.stream] at hmsg hstr
    refine ⟨hstream, h.read, fun hn href => ?_, fun h0 => ?_⟩
    · have href' : a.refused = false ∧ ¬ (buffer ≠ [] ∧ o.ret ≠ 0) := by
        have : (a.refused || decide (buffer ≠ [] ∧ o.ret ≠ 0)) = false := href
        rw [Bool.or_eq_false_iff] at this
        exact ⟨this.1, of_decide_eq_false this.2⟩
      have hold := h.streamed hn href'.1
      rw [flatMap_bytes, hcat rfl, List.flatMap_append, ← flatMap_bytes, ← flatMap_bytes]
      rw [List.flatMap_append] at hold
      rcases hstr hn with ⟨hb, hr, hsame⟩ | ⟨hb, hr⟩ | ⟨hr, hbytes⟩
      · -- nothing was given to send
        have hm : (a.after (.send buffer) k' o).msgs = a.msgs := if_neg hr
        rw [hm, hsame]
        exact hold
      · exact absurd ⟨hb, hr⟩ href'.2
      · have hm : (a.after (.send buffer) k' o).msgs = a.msgs ++ [buffer] := if_pos hr
        rw [hm, hbytes, List.flatten_append, ← hold, List.append_assoc]
        simp
    · obtain ⟨rest, fss, h1, h2, h3⟩ := h.framed h0
      rw [List.map_append] at h3
      rcases hmsg h0 with ⟨hr, hsame⟩ | ⟨hr, fs, hfs, hfq⟩
      · have hm : (a.after (.send buffer) k' o).msgs = a.msgs := if_neg hr
        exact ⟨rest, fss, by rw [hm]; exact h1, h2, hcat (by rw [hsame]; exact h3)⟩
      · -- one more message, its fragments at the end
        have hm : (a.after (.send buffer) k' o).msgs = a.msgs ++ [buffer] := if_pos hr
        refine ⟨rest ++ [buffer], fss ++ [fs], ?_, List.rel_append h2 (.cons hfs .nil), hcat ?_⟩
        · rw [hm, h1, List.append_assoc]
        · rw [hfq, ← List.append_assoc, h3]
          simp
  · have hne : ∀ b, op ≠ .send b := fun b hb => hsend ⟨b, hb⟩
    obtain ⟨hm, href⟩ := after_msgs (x := a) (k := k') (o := o) hne
    have hqueue := hb.queue hne
    refine ⟨hstream, h.read, fun hn hf => ?_, fun h0 => ?_⟩
    · have hold := h.streamed hn (href ▸ hf)
      rw [hm, flatMap_bytes, hcat rfl, hqueue, ← List.map_append, ← flatMap_bytes]
      exact hold
    · obtain ⟨rest, fss, h1, h2, h3⟩ := h.framed h0
      refine ⟨rest, fss, by rw [hm]; exact h1, h2, hcat ?_⟩
      rw [hqueue, ← List.map_append]
      exact h3

/-! ## The receiver acts -/

theorem after_reads {x : End} {op : Op} {k : KCP} {o : Out} (hop : ∀ room, op ≠ .recv room) :
    (x.after op k o).reads = x.reads ∧ (x.after op k o).popped = x.popped := by
  cases op with
  | recv room => exact absurd rfl (hop room)
  | _ => exact ⟨rfl, List.append_nil _⟩

theorem Delivered.receiver {mode : Int32} {a b : End} {op : Op} {k' : KCP} {o : Out}
    (h : Delivered mode a b) (hs : step b.kcp op = .ok (k', o))
    (hpre : b.popped.map content ++ b.kcp.rcvQueue.map content <+: a.sent.map content) :
    Delivered mode a (b.after op k' o) := by
  by_cases hrecv : ∃ room, op = .recv room
  · obtain ⟨room, rfl⟩ := hrecv
    rcases KCP.recv_spec (step_recv hs) with ⟨hn, -, hr, -⟩ | ⟨hread, q, p, hm, -, hr⟩
    · -- nothing to read
      have h1 : (b.after (.recv room) k' o).reads = b.reads := if_neg (by omega)
      have h2 : (b.after (.recv room) k' o).popped = b.popped := by
        show b.popped ++ consumed b.kcp (.recv room) = b.popped
        rw [consumed, if_neg hn, List.append_nil]
      refine ⟨h.stream, by rw [h1, h2]; exact h.read, h.streamed, fun h0 => ?_⟩
      rw [h1, h2]
      exact h.framed h0
    · obtain ⟨-, hd⟩ := KCP.mergeFragments_spec hm
      have h1 : (b.after (.recv room) k' o).reads = b.reads ++ [o.data] := if_pos (by omega)
      have h2 : (b.after (.recv room) k' o).popped = b.popped ++ KCP.messageSegs b.kcp.rcvQueue := by
        show b.popped ++ consumed b.kcp (.recv room) = _
        rw [consumed, if_pos hread]
      refine ⟨h.stream, ?_, h.streamed, fun h0 => ?_⟩
      · rw [h1, h2, List.flatten_append, h.read, List.flatMap_append, ← hd]
        simp
      · obtain ⟨rest, fss, e1, e2, e3⟩ := h.framed h0
        have hqueue : b.kcp.rcvQueue.map content <+: fss.flatten := by
          have hcat : b.popped.map content ++ b.kcp.rcvQueue.map content <+:
              b.popped.map content ++ fss.flatten := by
            rw [← e3, List.map_append]
            exact hpre.trans (List.prefix_append _ _)
          exact (List.prefix_append_right_inj _).mp hcat
        obtain ⟨m, ms, fs, fss', rfl, rfl, hrest, hfs, hmsg⟩ := readable_frames e2 hqueue hread
        refine ⟨ms, fss', ?_, hrest, ?_⟩
        · rw [h1, e1, hd, hmsg]
          simp
        · rw [h2, e3, List.map_append, hfs]
          simp
  · have hne : ∀ room, op ≠ .recv room := fun room hr => hrecv ⟨room, hr⟩
    obtain ⟨h1, h2⟩ := after_reads (x := b) (k := k') (o := o) hne
    refine ⟨h.stream, by rw [h1, h2]; exact h.read, h.streamed, fun h0 => ?_⟩
    rw [h1, h2]
    exact h.framed h0

/-! ## Every run -/

theorem delivered_initial (conv : UInt32) (c : Side → Setup) (a b : Side) :
    Delivered (c a).stream ((initial conv c).ends a) ((initial conv c).ends b) :=
  ⟨rfl, rfl, fun _ _ => rfl, fun _ => ⟨[], [], rfl, .nil, rfl⟩⟩

theorem delivered_reachable {conv : UInt32} {c : Side → Setup} (a : Side) {y : Sys}
    (hr : (freshSystem conv c).Reachable y) :
    ∃ T X, SysRel conv (fun _ => False) y T X ∧ Delivered (c a).stream (y.ends a) (y.ends a.peer) := by
  refine linked_reachable (J := fun ends _ _ => Delivered (c a).stream (ends a) (ends a.peer))
    (delivered_initial conv c a a.peer) ?_ y (modeSystem_reachable hr)
  intro y y' T X s op e k' o t' x' hrel hact hJ
  rcases Side.eq_or_peer a s with rfl | rfl
  · -- the sender's side
    have hsent : ((y.ends s).after op k' o).sent.map content = t'.sent :=
      ((hrel.ends s).sent_after hact.sim).1
    rw [hact.self, hact.peer]
    refine hJ.sender hact.step hact.allowed hact.body ?_
    rw [hsent, hact.sim.queue, (hrel.ends s).sent]
  · have hself := hact.self
    have hpeer := hact.peer
    rw [Side.peer_peer] at hpeer
    rw [hself, hpeer]
    refine hJ.receiver hact.step ?_
    have hpre := (hrel.ends a.peer).prefix_read
    rw [Side.peer_peer] at hpre
    rw [(hrel.ends a).sent]
    exact hpre

/-- **Ordered delivery.** Whatever is dropped, duplicated or reordered, and
however the operations of both sides interleave: in message mode the byte
strings `Recv` returned are the first of the messages `Send` accepted on the
other side; in stream mode, as long as no `Send` was refused, their bytes
are the first of the bytes accepted. -/
theorem ordered_delivery (conv : UInt32) (c : Side → Setup) (y : Sys) (hr : (freshSystem conv c).Reachable y)
    (a : Side) :
    ((c a).stream = 0 → (y.ends a.peer).reads <+: (y.ends a).msgs) ∧
      ((c a).stream ≠ 0 → (y.ends a).refused = false →
        (y.ends a.peer).reads.flatten <+: (y.ends a).msgs.flatten) := by
  obtain ⟨T, X, hrel, hdel⟩ := delivered_reachable a hr
  constructor
  · intro h0
    obtain ⟨rest, fss, hmsgs, -, -⟩ := hdel.framed h0
    exact ⟨rest, hmsgs.symm⟩
  · intro hn href
    have hpre := (hrel.ends a.peer).prefix_read
    rw [Side.peer_peer, ← (hrel.ends a).sent] at hpre
    -- what was taken is an initial part of what was numbered, byte by byte
    obtain ⟨l, hl⟩ := hpre
    have hsent : (y.ends a).sent.flatMap Segment.bytes =
        (y.ends a.peer).popped.flatMap Segment.bytes ++
          ((y.ends a.peer).kcp.rcvQueue.map content ++ l).flatMap Prod.snd := by
      rw [flatMap_bytes, ← hl, List.append_assoc, List.flatMap_append, ← flatMap_bytes]
    rw [hdel.read, ← hdel.streamed hn href, List.flatMap_append, hsent, List.append_assoc]
    exact List.prefix_append _ _

/-- One message in two packets; the second one arrives first, and twice. -/
def deliveryRun : List Ev :=
  [.app .A (.noDelay 0 10 0 1), .app .A (.setMtu 26), .app .A (.send [1, 2, 3]), .app .A (.send [4]),
    .app .A (.flush .full fun _ => 5), .deliver .B 1 true .regular false fun _ => 6, .app .B (.recv 10),
    .deliver .B 0 false .regular false fun _ => 7, .deliver .B 0 false .regular false fun _ => 8,
    .app .B (.recv 10)]

theorem ordered_delivery_reordered : ∃ y, play freshEv (initial 7 fun _ => {}) deliveryRun = some y ∧
    (y.ends .B).reads = [[1, 2, 3]] ∧ (y.ends .A).msgs = [[1, 2, 3], [4]] ∧
    (y.ends .B).reads <+: (y.ends .A).msgs := by
  obtain ⟨y, hy, hb, ha⟩ : ∃ y, play freshEv (initial 7 fun _ => {}) deliveryRun = some y ∧
      (y.ends .B).reads = [[1, 2, 3]] ∧ (y.ends .A).msgs = [[1, 2, 3], [4]] :=
    ⟨_, rfl, by decide +kernel, by decide +kernel⟩
  exact ⟨y, hy, hb, ha, (ordered_delivery 7 (fun _ => {}) y (play_reachable hy) .A).1 rfl⟩

/-! ## Nothing is lost -/

/-- What reached the peer of `a`, read or ready, is what `a` numbered first. -/
theorem SysRel.received {conv : UInt32} {F : Side → Prop} {y : Sys} {T : Side → KTx} {X : Side → Rx}
    (h : SysRel conv F y T X)
    (a : Side) : (y.ends a.peer).popped.map content ++ (y.ends a.peer).kcp.rcvQueue.map content =
      ((y.ends a).sent.map content).take (y.ends a.peer).cnt.rcv := by
  have hb := h.ends a.peer
  rw [Side.peer_peer] at hb
  have hq : (y.ends a.peer).kcp.rcvQueue.length = _ := hb.tied.rcv.queue_length hb.tied.bwd
  have ht := hb.tied.bwd.taken
  rw [List.prefix_iff_eq_take.mp hb.prefix_read, (h.ends a).sent, hb.cnt, List.length_append,
    List.length_map, List.length_map,
    hb.popped_length, hq]
  congr 1
  exact Nat.add_sub_of_le ht

theorem Frames.bytes {n : Nat} {m : Bytes} {fs : List Payload} (h : Frames n m fs) : fs.flatMap Prod.snd = m := by
  induction h with
  | last d => simp
  | more d hn h ih => rw [List.flatMap_cons, ih]

theorem framed_bytes {ms : List Bytes} {fss : List (List Payload)} (h : List.Forall₂ Framed ms fss) :
    fss.flatten.flatMap Prod.snd = ms.flatten := by
  induction h with
  | nil => rfl
  | cons h _ ih =>
    obtain ⟨n, hn⟩ := h
    rw [List.flatten_cons, List.flatMap_append, hn.bytes, List.flatten_cons, ih]

/-- **Nothing is lost.** When nothing waits at `a` to be sent or acknowledged,
what was read at its peer and what is ready there are all the bytes `Send`
accepted; in stream mode, if it refused none. -/
theorem drained_delivered (conv : UInt32) (c : Side → Setup) (y : Sys) (hr : (freshSystem conv c).Reachable y)
    (a : Side)
    (href : (c a).stream ≠ 0 → (y.ends a).refused = false) (hbuf : (y.ends a).kcp.sndBuf = [])
    (hqueue : (y.ends a).kcp.sndQueue = []) : (y.ends a.peer).reads.flatten ++
      (y.ends a.peer).kcp.rcvQueue.flatMap Segment.bytes = (y.ends a).msgs.flatten := by
  obtain ⟨T, X, hrel, hdel⟩ := delivered_reachable a hr
  have hsent : ((y.ends a).sent ++ (y.ends a).kcp.sndQueue).flatMap Segment.bytes = (y.ends a).msgs.flatten := by
    by_cases h0 : (c a).stream = 0
    · obtain ⟨rest, fss, hmsgs, hframed, hcat⟩ := hdel.framed h0
      rw [flatMap_bytes, hcat, List.flatMap_append, ← flatMap_bytes, framed_bytes hframed, hmsgs,
        List.flatten_append, hdel.read]
    · exact hdel.streamed h0 (href h0)
  -- everything numbered is acknowledged, so everything numbered has arrived
  have hall : (y.ends a).sent.length ≤ (y.ends a.peer).cnt.rcv := by
    have h1 : (y.ends a).kcp.snd.buf.length + (T a).una = (T a).sent.length := (hrel.ends a).tied.snd.len
    have h2 := (hrel.ends a).tied.fwd.una_le
    rw [KCP.snd, hbuf, List.map_nil, List.length_nil] at h1
    rw [(hrel.ends a.peer).cnt, ← List.length_map content, (hrel.ends a).sent]
    show _ ≤ (X a.peer).rcv
    omega
  have hrec := hrel.received a
  rw [List.take_of_length_le (by rwa [List.length_map])] at hrec
  rw [hdel.read, ← hsent, hqueue, List.append_nil, flatMap_bytes, flatMap_bytes, ← List.flatMap_append,
    hrec, ← flatMap_bytes]

/-- The rest of the run above: the last packet arrives, and the answer. -/
def drainedRun : List Ev :=
  deliveryRun ++ [.deliver .B 0 false .regular true fun _ => 9, .deliver .A 0 false .regular false fun _ => 10]

theorem drained_delivered_reordered : ∃ y, play freshEv (initial 7 fun _ => {}) drainedRun = some y ∧
    (y.ends .B).reads.flatten ++ (y.ends .B).kcp.rcvQueue.flatMap Segment.bytes = [1, 2, 3, 4] := by
  obtain ⟨y, hy, hbuf, hqueue, hmsgs⟩ : ∃ y, play freshEv (initial 7 fun _ => {}) drainedRun = some y ∧
      (y.ends .A).kcp.sndBuf = [] ∧ (y.ends .A).kcp.sndQueue = [] ∧ (y.ends .A).msgs = [[1, 2, 3], [4]] :=
    ⟨_, rfl, by decide +kernel, by decide +kernel, by decide +kernel⟩
  have h := drained_delivered 7 (fun _ => {}) y (play_reachable hy) .A (fun h => absurd rfl h) hbuf hqueue
  rw [hmsgs] at h
  exact ⟨y, hy, h⟩

end KcpGo.L3
