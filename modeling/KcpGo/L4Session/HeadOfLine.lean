import KcpGo.L3Protocol.Framing
import KcpGo.L4Session.ByteStream

/-!
# A message that cannot be read blocks those behind it

The peer sends the fragments of messages, numbered down to 0. `readLocked`
asks `PeekSize` and takes 0 for an empty queue, so an empty message at the
head of `rcv_queue` is never taken.

* `read_unblocked`: when no message is empty, a complete message with a byte
  in `rcv_queue` means that a read returns something.
* `blocked_by_empty`: an empty message, and a byte behind it.
-/
namespace KcpGo.L4.Session

open KcpGo.L1 KcpGo.L2 KcpGo.L3

/-- The complete messages of a queue, `acc` being the beginning of the first. -/
def messagesFrom : List Segment → List Segment → List (List Segment)
  | _, [] => []
  | acc, s :: q => if s.frg = 0 then (acc ++ [s]) :: messagesFrom [] q else messagesFrom (acc ++ [s]) q

/-- The queue contains a complete message with at least one byte. -/
def HasMessage (q : List Segment) : Prop := ∃ m ∈ messagesFrom [] q, m.flatMap Segment.bytes ≠ []

instance (q : List Segment) : Decidable (HasMessage q) := inferInstanceAs (Decidable (∃ _ ∈ _, _))

/-- A message ends in the queue. -/
theorem HasMessage.last {q : List Segment} (h : HasMessage q) : ∃ s ∈ q, s.frg = 0 := by
  have hgen : ∀ (q acc : List Segment) (m : List Segment), m ∈ messagesFrom acc q → ∃ s ∈ q, s.frg = 0 := by
    intro q
    induction q with
    | nil => simp [messagesFrom]
    | cons s q ih =>
      intro acc m hm
      by_cases hs : s.frg = 0
      · exact ⟨s, List.mem_cons_self, hs⟩
      · rw [messagesFrom, if_neg hs] at hm
        obtain ⟨t, ht, h0⟩ := ih _ m hm
        exact ⟨t, List.mem_cons_of_mem _ ht, h0⟩
  obtain ⟨m, hm, -⟩ := h
  exact hgen q [] m hm

/-- A peer that sends the fragments `fss` of messages one after the other:
what was received in order is a beginning of them. -/
def followLts (lib : Lib) (conv : UInt32) (ds ps : Nat) (block : Block)
    (fss : List (List Payload)) : LTS Feed FeedCall :=
  (feedLts lib conv ds ps block).restrict fun _ _ f' => (InOrder.inOrder Segment.sn f'.kept).map content <+: fss.flatten

/-- Whole messages have been taken. -/
structure Feed.Follows (fss : List (List Payload)) (f : Feed) : Prop where
  order : (InOrder.inOrder Segment.sn f.kept).map content <+: fss.flatten
  taken : ∃ taken fss₁ fss₂, Tracks taken f.kept f.sess.kcp.rcv ∧ fss = fss₁ ++ fss₂ ∧ taken.map content = fss₁.flatten

section
variable {ms : List Bytes} {fss fss₁ fss₂ : List (List Payload)} {f f' : Feed}

/-- The queue starts with the next message. -/
theorem queue_follows {taken : List Segment}
    (ho : (InOrder.inOrder Segment.sn f.kept).map content <+: (fss₁ ++ fss₂).flatten)
    (ht : Tracks taken f.kept f.sess.kcp.rcv) (hm : taken.map content = fss₁.flatten) :
    f.sess.kcp.rcvQueue.map content <+: fss₂.flatten := by
  rw [ht.inOrder, List.append_assoc, List.map_append, List.flatten_append, hm,
    List.prefix_append_right_inj, List.map_append] at ho
  exact (List.prefix_append _ _).trans ho

/-- `Recv` takes the next message whole. -/
theorem Feed.Follows.recv (hf : List.Forall₂ Framed ms fss) (h : f.Follows fss) {room : Nat} {k : KCP}
    {ret : Int} {d : Bytes}
    (hr : f.sess.kcp.recv room = .ok (k, ret, d)) (hread : f.sess.kcp.readable room) :
    ∃ taken fss₁ fss₂, Tracks taken f.kept k.rcv ∧ fss = fss₁ ++ fss₂ ∧ taken.map content = fss₁.flatten := by
  obtain ⟨ho, taken, fss₁, fss₂, ht, rfl, hm⟩ := h
  have hq := queue_follows ho ht hm
  obtain ⟨q, hsplit, -, hfed⟩ := recv_takes hr hread ht.heap
  have hf₂ : List.Forall₂ Framed (ms.drop fss₁.length) fss₂ := List.forall₂_drop_append _ _ _ hf
  obtain ⟨m, ms', fs, fss', -, rfl, -, hfs, -⟩ := readable_frames hf₂ hq hread
  refine ⟨taken ++ KCP.messageSegs f.sess.kcp.rcvQueue, fss₁ ++ [fs], fss', (ht.take hsplit).moved hfed, by simp, ?_⟩
  rw [List.map_append, hm, hfs, List.flatten_append, List.flatten_singleton]

theorem follows_read (hf : List.Forall₂ Framed ms fss) (h : f.Follows fss) {b : Bytes} {k : KCP}
    {r : Reader} {d : Option Bytes}
    (hs : readBuf f.sess.kcp f.reader b = .ok (k, r, d)) :
    Feed.Follows fss ⟨{ f.sess with kcp := k, input := r.unread, recvCap := r.array.length }, r, f.kept,
      f.returned ++ d.getD []⟩ := by
  refine ⟨h.order, ?_⟩
  cases readBuf_spec hs with
  | left hr => exact h.taken
  | none hr hk => exact h.taken
  | direct hr hk hb h1 => exact h.recv hf h1 ⟨Int.le_of_lt hk, hb⟩
  | buffered hr hk hb h1 hr' hcap => exact h.recv hf h1 ⟨Int.le_of_lt hk, by omega⟩

theorem follows_operates {P : Op → Prop} (h : f.Follows fss) {s : Session} (hop : Operates P f.sess s)
    (hP : ∀ op, P op → ∀ room, op ≠ .recv room)
    (ho : (InOrder.inOrder Segment.sn (f.after s).kept).map content <+: fss.flatten) : (f.after s).Follows fss := by
  obtain ⟨ops, hrun, hops⟩ := hop.run
  obtain ⟨taken, fss₁, fss₂, ht, hsplit, hm⟩ := h.taken
  obtain ⟨new, hfed⟩ := run_fed hrun (fun op hm => hP op (hops op hm)) ht.heap
  exact ⟨ho, taken, fss₁, fss₂, ht.fed hfed, hsplit, hm⟩

theorem follow_inductive (lib : Lib) (conv : UInt32) (ds ps : Nat) (block : Block) (hf : List.Forall₂ Framed ms fss) :
    (followLts lib conv ds ps block fss).Inductive (Feed.Follows fss) where
  init := by
    intro f hf
    obtain ⟨hs, -, hk, -⟩ := hf
    have hrcv := (new_shape hs).2.2.2
    refine ⟨?_, [], [], fss, ?_, rfl, rfl⟩
    · rw [hk]
      exact List.nil_prefix
    · rw [hk, hrcv]
      exact Tracks.initial conv
  step := by
    intro f l f' h hs
    obtain ⟨⟨hl, hstep⟩, ho⟩ := hs
    cases l with
    | read b =>
      obtain ⟨⟨k, r, d⟩, hread, hs⟩ := Go.bind_ok hstep
      cases hs
      exact follows_read hf h hread
    | write v clk =>
      obtain ⟨⟨s, r⟩, hw, hs⟩ := Go.bind_ok hstep
      cases hs
      exact follows_operates h (writeBuffersLocked_operates hw) (fun op => inner_noRecv) ho
    | call c =>
      obtain ⟨⟨s, o⟩, hc, hs⟩ := Go.bind_ok hstep
      cases hs
      exact follows_operates h (step_operates hl.2 hc) (fun op => ops_noRecv) ho

/-- A fragment that is not the last one is not numbered 0. -/
theorem Frames.frg_ne {n : Nat} {m : Bytes} {fs l : List Payload} (h : Frames n m fs) (hl : l <+: fs)
    (hlen : l.length < n + 1) :
    ∀ x ∈ l, x.1 ≠ 0 := by
  induction h generalizing l with
  | last d =>
    have : l = [] := List.eq_nil_of_length_eq_zero (by omega)
    simp [this]
  | @more n m fs d hn h ih =>
    cases l with
    | nil => simp
    | cons x l =>
      obtain ⟨rfl, hl'⟩ := List.cons_prefix_cons.mp hl
      have hrest := ih hl' (by simpa using hlen)
      intro y hy
      rcases List.mem_cons.mp hy with rfl | hy
      · exact ofNat_ne_zero (Nat.succ_pos n) hn
      · exact hrest y hy

/-- A queue in which a message ends has its first message whole. -/
theorem peekSize_pos {k : KCP} (hf : List.Forall₂ Framed ms fss) (hne : ∀ m ∈ ms, m ≠ [])
    (hq : k.rcvQueue.map content <+: fss.flatten)
    (hlast : ∃ s ∈ k.rcvQueue, s.frg = 0) : 0 < k.peekSize := by
  obtain ⟨s₀, hs₀, hz⟩ := hlast
  cases hf with
  | nil =>
    have := List.prefix_nil.mp hq
    rw [List.map_eq_nil_iff] at this
    simp [this] at hs₀
  | @cons m fs ms' fss' hm hrest =>
    obtain ⟨n, hn⟩ := hm
    -- the first message is in the queue: what is shorter has no 0
    have hall : n + 1 ≤ k.rcvQueue.length := by
      by_contra hlt
      have hpre : k.rcvQueue.map content <+: fs := by
        rw [List.flatten_cons] at hq
        exact List.prefix_of_prefix_length_le hq (List.prefix_append _ _) (by rw [List.length_map, hn.length]; omega)
      exact Frames.frg_ne hn hpre (by rw [List.length_map]; omega) (content s₀) (List.mem_map_of_mem hs₀) hz
    obtain ⟨r, hr⟩ : fs <+: k.rcvQueue.map content := by
      rw [List.flatten_cons] at hq
      exact List.prefix_of_prefix_length_le (List.prefix_append _ _) hq (by rw [List.length_map, hn.length]; exact hall)
    have hready : 0 ≤ k.peekSize := peekSize_nonneg hn hr.symm
    have hbytes := (messageSegs_frames hn hr.symm).2
    rw [peekSize_eq hready, hbytes]
    exact_mod_cast List.length_pos_iff.mpr (hne m List.mem_cons_self)

/-- Some bytes are read whenever there are some to read. -/
theorem readBuf_some {k : KCP} {r : Reader} {b : Bytes} (hb : b ≠ []) (h : r.unread ≠ [] ∨ 0 < k.peekSize) :
    ∃ k' r' d, readBuf k r b = .ok (k', r', some d) ∧ d ≠ [] := by
  have hpos := List.length_pos_iff.mpr hb
  have htake : ∀ d : Bytes, d ≠ [] → d.take b.length ≠ [] := by
    intro d hd
    rw [ne_eq, List.take_eq_nil_iff]
    simp [hd, hb]
  obtain ⟨k', r', d, hread⟩ := readBuf_total k r b
  cases readBuf_spec hread with
  | left hr => exact ⟨_, _, _, hread, htake _ hr⟩
  | none hr hk => exact absurd h (by simp [hr, hk])
  | direct hr hk hfit h1 =>
    refine ⟨_, _, _, hread, ?_⟩
    rw [← List.length_pos_iff, recv_length h1 ⟨Int.le_of_lt hk, hfit⟩]
    omega
  | buffered hr hk hfit h1 hr' hcap =>
    refine ⟨_, _, _, hread, htake _ ?_⟩
    rw [← List.length_pos_iff, recv_length h1 ⟨Int.le_of_lt hk, by omega⟩]
    omega

end

/-- **Nothing blocks when no message is empty.** -/
theorem read_unblocked {lib : Lib} {conv : UInt32} {ds ps : Nat} {block : Block} {ms : List Bytes}
    {fss : List (List Payload)}
    (hf : List.Forall₂ Framed ms fss) (hne : ∀ m ∈ ms, m ≠ []) {f : Feed}
    (hr : (followLts lib conv ds ps block fss).Reachable f)
    (hq : HasMessage f.sess.kcp.rcvQueue) {b : Bytes} (hb : b ≠ []) :
    ∃ k r d, readBuf f.sess.kcp f.reader b = .ok (k, r, some d) ∧ d ≠ [] ∧
      f.sess.readLocked b.length = .ok ({ f.sess with kcp := k, input := r.unread, recvCap := r.array.length },
        some d) := by
  obtain ⟨ho, taken, fss₁, fss₂, ht, rfl, hm⟩ := (follow_inductive lib conv ds ps block hf).reachable f hr
  have hf₂ : List.Forall₂ Framed (ms.drop fss₁.length) fss₂ := List.forall₂_drop_append _ _ _ hf
  have hpos : 0 < f.sess.kcp.peekSize :=
    peekSize_pos hf₂ (fun m hmem => hne m (List.mem_of_mem_drop hmem)) (queue_follows ho ht hm) hq.last
  obtain ⟨k, r, d, hread, hd⟩ := readBuf_some hb (.inr hpos)
  have hfeed : (feedLts lib conv ds ps block).Reachable f := hr.of_restrict
  have hinv := ((feed_inductive lib conv ds ps block).reachable f hfeed).1
  exact ⟨k, r, d, hread, hd, readBuf_readLocked hinv.input hinv.recvCap hread⟩

/-- One datagram with two messages of one fragment. -/
def twoMessages (a b : Bytes) : FeedCall :=
  .call (.packetInput (Segment.wire { conv := 7, cmd := IKCP_CMD_PUSH, sn := 0, data := some a } ++
    Segment.wire { conv := 7, cmd := IKCP_CMD_PUSH, sn := 1, data := some b }) fun _ _ => 0)

theorem twoMessages_framed (a b : Bytes) : List.Forall₂ Framed [a, b] [[(0, a)], [(0, b)]] :=
  .cons ⟨0, .last a⟩ (.cons ⟨0, .last b⟩ .nil)

/-- The session after the datagram. -/
theorem twoMessages_reachable {a b : Bytes} (hlen : a.length + b.length ≤ 1000) {f : Feed}
    (h : (feedStart >>= fun f => f.step xors (twoMessages a b)) = .ok f)
    (ho : (InOrder.inOrder Segment.sn f.kept).map content <+: [[(0, a)], [(0, b)]].flatten) :
    (followLts xors 7 0 0 .nil [[(0, a)], [(0, b)]]).Reachable f := by
  obtain ⟨f₀, h0, hstep⟩ := Go.bind_ok h
  obtain ⟨s, hs, h0⟩ := Go.bind_ok h0
  cases h0
  refine ⟨_, [twoMessages a b], ⟨hs, rfl, rfl, rfl⟩, .cons ⟨⟨⟨?_, by simp⟩, hstep⟩, ho⟩ (.nil _)⟩
  show (Segment.wire _ ++ Segment.wire _).length ≤ maxPacketSize
  rw [List.length_append, Segment.wire_length, Segment.wire_length]
  simp only [Segment.len, Segment.bytes, Option.getD_some, maxPacketSize]
  omega

theorem read_unblocked_two : ∃ f, (followLts xors 7 0 0 .nil [[(0, [65])], [(0, [66])]]).Reachable f ∧
    HasMessage f.sess.kcp.rcvQueue ∧ ∃ k r d, readBuf f.sess.kcp f.reader [0] = .ok (k, r, some d) ∧ d ≠ [] := by
  obtain ⟨f, hf, htest⟩ : ∃ f, (feedStart >>= fun f => f.step xors (twoMessages [65] [66])) = .ok f ∧
      (decide ((InOrder.inOrder Segment.sn f.kept).map content <+: [[(0, [65])], [(0, [66])]].flatten) &&
        decide (HasMessage f.sess.kcp.rcvQueue)) = true := Go.of_test (by decide +kernel)
  simp only [Bool.and_eq_true, decide_eq_true_eq] at htest
  have hr := twoMessages_reachable (by decide) hf htest.1
  obtain ⟨k, r, d, hread, hd, -⟩ :=
    read_unblocked (twoMessages_framed [65] [66]) (by simp) hr htest.2 (b := [0]) (by simp)
  exact ⟨f, hr, htest.2, k, r, d, hread, hd⟩

/-- **An empty message blocks the byte behind it.** It is at the head of
`rcv_queue`, and no read takes it. -/
theorem blocked_by_empty : ∃ f, (followLts xors 7 0 0 .nil [[(0, [])], [(0, [65])]]).Reachable f ∧
    HasMessage f.sess.kcp.rcvQueue ∧ f.sess.input = [] ∧ ∀ n, f.sess.readLocked n = .ok (f.sess, none) := by
  obtain ⟨f, hf, htest⟩ : ∃ f, (feedStart >>= fun f => f.step xors (twoMessages [] [65])) = .ok f ∧
      (decide ((InOrder.inOrder Segment.sn f.kept).map content <+: [[(0, [])], [(0, [65])]].flatten) &&
        (decide (HasMessage f.sess.kcp.rcvQueue) &&
          (decide (f.sess.input = []) && decide (f.sess.kcp.peekSize ≤ 0)))) = true :=
    Go.of_test (by decide +kernel)
  simp only [Bool.and_eq_true, decide_eq_true_eq] at htest
  obtain ⟨ho, hmsg, hin, hpeek⟩ := htest
  refine ⟨f, twoMessages_reachable (by decide) hf ho, hmsg, hin, fun n => ?_⟩
  rw [readLocked, if_neg (by simp [hin]), if_pos hpeek]

end KcpGo.L4.Session
