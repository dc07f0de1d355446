import KcpGo.L3Protocol.SendWindow

/-!
# The receiver against any peer

The receive side of a control block with a fixed window under every
operation, `Input` on arbitrary bytes included. The segments `Recv` has
taken are kept as a ghost list.

* `moveAll_spec`: what the move loop of `Recv` and `parse_data` does.
* `Rcv.Inv`: the reorder heap is well formed, inside the window and not
  holding back the next number while the queue has room.
* `receiver_invariant`: this and the order of everything delivered, in every
  reachable state.
-/
namespace KcpGo.L2

open KcpGo.L1 KcpGo.Serial

/-- The window may start one later once its first number is gone. -/
theorem SegHeap.Inv.shift {b : UInt32} {w : Nat} {h : SegHeap} (hi : SegHeap.Inv b w h)
    (hn : ∀ s ∈ h.segments, s.sn ≠ b) : SegHeap.Inv (b + 1) w h := by
  refine ⟨hi.marks, hi.nodup, hi.heap, fun s hs => ?_⟩
  have h1 := hi.window s hs
  have h2 := hn s hs
  unfold SegHeap.key at h1 ⊢
  rw [ne_eq, ← UInt32.toNat_inj] at h2
  have := s.sn.toNat_lt; have := b.toNat_lt
  simp only [UInt32.toNat_sub, UInt32.toNat_add, UInt32.toNat_one] at h1 ⊢
  omega

/-- The queue is full or the next number is not in the heap. -/
def Settled (v : Rcv) : Prop := v.wnd.toNat ≤ v.queue.length ∨ v.buf.has v.nxt = false

/-- What the move loop does: `moved` goes from the heap to the queue. -/
structure MoveSpec (w : Nat) (v v' : Rcv) (moved : List Segment) : Prop where
  queue : v'.queue = v.queue ++ moved
  nxt : v'.nxt = v.nxt + u32 moved.length
  wnd : v'.wnd = v.wnd
  run : Consec Segment.sn v.nxt moved
  perm : (moved ++ v'.buf.segments).Perm v.buf.segments
  heap : SegHeap.Inv v'.nxt w v'.buf
  settled : Settled v'
  room : moved = [] ∨ v'.queue.length ≤ v.wnd.toNat

namespace KCP

theorem moveReady_spec {w : Nat} (hw : w ≤ 2 ^ 31) : ∀ (n : Nat) (k : KCP),
    SegHeap.Inv k.rcvNxt w k.rcvBuf → k.rcvBuf.segments.length ≤ n →
    ∃ moved, MoveSpec w k.rcv (moveReady n k).rcv moved := by
  intro n
  induction n with
  | zero =>
    intro k hi hn
    have hnil : k.rcvBuf.segments = [] := List.eq_nil_of_length_eq_zero (Nat.le_zero.mp hn)
    refine ⟨[], by simp [moveReady], by simp [moveReady], rfl, trivial, by simp [moveReady], hi, .inr ?_,
      .inl rfl⟩
    simp [moveReady, rcv, SegHeap.has, hi.marks, hnil]
  | succ n ih =>
    intro k hi hn
    rw [moveReady]
    split
    · rename_i hpop
      have hnil := SegHeap.pop_none.mp hpop
      refine ⟨[], by simp, by simp, rfl, trivial, by simp, hi, .inr ?_, .inl rfl⟩
      simp [rcv, SegHeap.has, hi.marks, hnil]
    · rename_i seg h hpop
      obtain ⟨hi', hperm, hnew, hmin⟩ := hi.pop hw hpop
      split
      · -- the next number is at the root and the queue has room
        rename_i hc
        obtain ⟨hsn, hroom⟩ := hc
        have hdist : ∀ s ∈ h.segments, s.sn ≠ k.rcvNxt := by
          intro s hs he
          have : h.has seg.sn = true := (hi'.has_iff _).mpr ⟨s, hs, he.trans hsn.symm⟩
          rw [hnew] at this
          cases this
        have hlen : h.segments.length ≤ n := by
          have := hperm.length_eq
          simp at this
          omega
        obtain ⟨moved, hm⟩ := ih { k with rcvBuf := h, rcvQueue := k.rcvQueue ++ [seg]
                                          rcvNxt := k.rcvNxt + 1 } (hi'.shift hdist) hlen
        refine ⟨seg :: moved, ?_, ?_, hm.wnd, ⟨hsn, hm.run⟩, ?_, hm.heap, hm.settled, .inr ?_⟩
        · rw [hm.queue]; simp [rcv]
        · rw [hm.nxt]; simp [rcv, add_u32_succ]
        · exact (hm.perm.cons seg).trans hperm
        · rcases hm.room with rfl | hr
          · rw [hm.queue]
            simp only [rcv, List.append_nil, List.length_append, List.length_singleton]
            omega
          · exact hr
      · -- put the root back
        rename_i hc
        have hkey : SegHeap.key k.rcvNxt seg < w := hi.window seg (hperm.mem_iff.mp List.mem_cons_self)
        have hback := hi'.push hw hkey hnew
        have hpp : (h.push seg).segments.Perm k.rcvBuf.segments :=
          (BinHeap.push_perm SegHeap.less h.segments seg).trans hperm
        refine ⟨[], by simp [rcv], by simp [rcv], rfl, trivial, hpp, hback, ?_, .inl rfl⟩
        by_cases hfull : k.rcvWnd.toNat ≤ k.rcvQueue.length
        · exact .inl hfull
        · right
          have hne : seg.sn ≠ k.rcvNxt := fun he => hc ⟨he, Nat.lt_of_not_le hfull⟩
          by_contra hhas
          rw [Bool.not_eq_false] at hhas
          obtain ⟨s, hs, he⟩ := (hback.has_iff _).mp hhas
          have hz : SegHeap.key k.rcvNxt s = 0 := by
            unfold SegHeap.key
            rw [show s.sn = k.rcvNxt from he]
            simp
          have := hmin s (hpp.mem_iff.mp hs)
          rw [hz, Nat.le_zero] at this
          exact hne ((SegHeap.key_inj (this.trans hz.symm)).trans he)

theorem moveAll_spec {w : Nat} (hw : w ≤ 2 ^ 31) {k : KCP} (hi : SegHeap.Inv k.rcvNxt w k.rcvBuf) :
    ∃ moved, MoveSpec w k.rcv k.moveAll.rcv moved :=
  moveReady_spec hw _ k hi (Nat.le_refl _)

/-! ## `Recv` -/

/-- The segments of the first message in the queue: up to the first one with
`frg = 0`. -/
def messageSegs : List Segment → List Segment
  | [] => []
  | s :: q => if s.frg = 0 then [s] else s :: messageSegs q

/-- `Recv` takes the first message and returns its bytes. -/
theorem mergeFragments_spec : ∀ {q q' : List Segment} {room : Nat} {d : Bytes},
    mergeFragments room q = .ok (d, q') → q = messageSegs q ++ q' ∧ d = (messageSegs q).flatMap Segment.bytes := by
  intro q
  induction q with
  | nil =>
    intro q' room d h
    cases h
    exact ⟨rfl, rfl⟩
  | cons s q ih =>
    intro q' room d h
    rw [mergeFragments] at h
    split at h
    · cases h
    split at h
    · rename_i hz
      cases h
      simp [messageSegs, hz]
    · rename_i hz
      obtain ⟨⟨rest, q₁⟩, hr, h⟩ := Go.bind_ok h
      cases h
      obtain ⟨h1, h2⟩ := ih hr
      refine ⟨?_, ?_⟩
      · rw [messageSegs, if_neg hz, List.cons_append, ← h1]
      · simp [messageSegs, hz, h2]

end KCP

/-- The segments an operation takes out of `rcv_queue` for good. -/
def consumed (k : KCP) : Op → List Segment
  | .recv room => if k.readable room then KCP.messageSegs k.rcvQueue else []
  | _ => []

/-! ## The invariant -/

namespace Rcv

structure Inv (w : Nat) (v : Rcv) : Prop where
  heap : SegHeap.Inv v.nxt w v.buf
  settled : Settled v
  queue : v.queue.length ≤ w
  wnd : v.wnd.toNat = w

/-- The queue of `v'` is that of `v` and the next numbers after it. -/
def Appends (v v' : Rcv) : Prop :=
  ∃ moved, v'.queue = v.queue ++ moved ∧ v'.nxt = v.nxt + u32 moved.length ∧ Consec Segment.sn v.nxt moved

theorem Appends.refl (v : Rcv) : Appends v v := ⟨[], by simp, by simp, trivial⟩

theorem Appends.trans {a b c : Rcv} (h₁ : Appends a b) (h₂ : Appends b c) : Appends a c := by
  obtain ⟨m₁, hq₁, hn₁, hr₁⟩ := h₁
  obtain ⟨m₂, hq₂, hn₂, hr₂⟩ := h₂
  refine ⟨m₁ ++ m₂, by rw [hq₂, hq₁, List.append_assoc], ?_, ?_⟩
  · rw [hn₂, hn₁, add_u32_assoc, List.length_append]
  · exact hr₁.append (hn₁ ▸ hr₂)

end Rcv

theorem MoveSpec.appends {w : Nat} {v v' : Rcv} {moved : List Segment} (h : MoveSpec w v v' moved) :
    v.Appends v' :=
  ⟨moved, h.queue, h.nxt, h.run⟩

theorem MoveSpec.inv {w : Nat} {v v' : Rcv} {moved : List Segment} (h : MoveSpec w v v' moved)
    (hq : v.queue.length ≤ w) (hw : v.wnd.toNat = w) : v'.Inv w := by
  refine ⟨h.heap, h.settled, ?_, by rw [h.wnd]; exact hw⟩
  rcases h.room with rfl | hr
  · rw [h.queue, List.append_nil]
    exact hq
  · omega

/-- Inside the window by both tests of `Input` is inside it. -/
theorem key_lt_window {sn nxt wnd : UInt32} (hw : wnd.toNat < 2 ^ 31) (hb : itimediff sn (nxt + wnd) < 0)
    (hn : 0 ≤ itimediff sn nxt) : (sn - nxt).toNat < wnd.toNat := by
  rw [itimediff, diff_neg] at hb
  rw [itimediff, diff_nonneg] at hn
  have := sn.toNat_lt; have := nxt.toNat_lt
  simp only [UInt32.toNat_sub, UInt32.toNat_add] at *
  omega

theorem Rcv.Inv.push {w : Nat} (hw : w < 2 ^ 31) {k k' : KCP} {h : Header} {payload : Bytes}
    (hs : KCP.PushSpec k h payload k') (hi : k.rcv.Inv w) : k'.rcv.Inv w ∧ k.rcv.Appends k'.rcv := by
  cases hs with
  | beyond => exact ⟨hi, Rcv.Appends.refl _⟩
  | old => exact ⟨hi, Rcv.Appends.refl _⟩
  | repeated =>
    obtain ⟨moved, hm⟩ := KCP.moveAll_spec (k := k.ackPush h.sn h.ts) (Nat.le_of_lt hw) hi.heap
    exact ⟨hm.inv hi.queue hi.wnd, hm.appends⟩
  | stored hb hn hr =>
    have hkey : SegHeap.key k.rcvNxt (KCP.pushed h payload) < w := by
      have hwnd : k.rcvWnd.toNat = w := hi.wnd
      have := key_lt_window (by omega) hb hn
      rw [← hwnd]
      exact this
    have hheap : SegHeap.Inv k.rcvNxt w (k.rcvBuf.push (KCP.pushed h payload)) :=
      SegHeap.Inv.push hi.heap (Nat.le_of_lt hw) hkey hr
    obtain ⟨moved, hm⟩ := KCP.moveAll_spec
      (k := { k.ackPush h.sn h.ts with rcvBuf := k.rcvBuf.push (KCP.pushed h payload) })
      (Nat.le_of_lt hw) hheap
    exact ⟨hm.inv hi.queue hi.wnd, hm.appends⟩

theorem Rcv.Inv.seg {w : Nat} (hw : w < 2 ^ 31) {pkt : PacketType} {h : Header} {payload : Bytes}
    {k k' : KCP} (hs : KCP.SegSpec pkt h payload k k') (hi : k.rcv.Inv w) :
    k'.rcv.Inv w ∧ k.rcv.Appends k'.rcv := by
  by_cases hp : h.cmd = IKCP_CMD_PUSH
  · obtain ⟨k₁, hr, -, hspec⟩ := hs.push hp
    have := Rcv.Inv.push hw hspec (hr ▸ hi)
    rw [hr] at this
    exact this
  · rw [(hs.other hp).1]
    exact ⟨hi, Rcv.Appends.refl _⟩

/-- Operations that leave the receive window as it is. -/
def KeepsWnd : Op → Prop
  | .wndSize _ rcvwnd => rcvwnd ≤ 0
  | _ => True

/-- An operation takes a prefix of the queue away and appends to the rest. -/
theorem Rcv.Inv.body {w : Nat} (hw : w < 2 ^ 31) {k e : KCP} {op : Op} (h : Body k op e)
    (hop : KeepsWnd op) (hi : k.rcv.Inv w) :
    e.rcv.Inv w ∧ ∃ q, k.rcvQueue = consumed k op ++ q ∧ Rcv.Appends { k.rcv with queue := q } e.rcv := by
  have same : consumed k op = [] → e.rcv = k.rcv →
      e.rcv.Inv w ∧ ∃ q, k.rcvQueue = consumed k op ++ q ∧ Rcv.Appends { k.rcv with queue := q } e.rcv := by
    intro hc he
    rw [he, hc]
    exact ⟨hi, k.rcvQueue, rfl, Rcv.Appends.refl _⟩
  cases h with
  | send h =>
    obtain ⟨q, rfl, -⟩ := KCP.send_spec h
    exact same rfl rfl
  | recv h =>
    rcases KCP.recv_spec h with ⟨hn, rfl, -, -⟩ | ⟨hread, q, p, hm, rfl, -⟩
    · exact same (by simp [consumed, hn]) rfl
    · obtain ⟨hq, -⟩ := KCP.mergeFragments_spec hm
      obtain ⟨moved, hmv⟩ := KCP.moveAll_spec (k := { k with rcvQueue := q }) (Nat.le_of_lt hw) hi.heap
      have hlen : q.length ≤ w := by
        have h1 := congrArg List.length hq
        rw [List.length_append] at h1
        have h2 : k.rcvQueue.length ≤ w := hi.queue
        omega
      refine ⟨hmv.inv hlen hi.wnd, q, ?_, hmv.appends⟩
      simp only [consumed, hread, if_true]
      exact hq
  | input h =>
    rcases KCP.inputBody_spec h with ⟨-, rfl, -⟩ | ⟨-, st, hl, hsame, -⟩
    · exact same rfl rfl
    · obtain ⟨h1, h2⟩ := KCP.inputLoop_keeps (P := fun x => x.rcv.Inv w ∧ k.rcv.Appends x.rcv)
        (fun _ _ a b _ hs ⟨ha, hap⟩ =>
          ⟨(Rcv.Inv.seg hw hs ha).1, hap.trans (Rcv.Inv.seg hw hs ha).2⟩) hl ⟨hi, Rcv.Appends.refl _⟩
      rw [hsame.rcv]
      exact ⟨h1, k.rcvQueue, rfl, h2⟩
  | wndSize a b =>
    obtain ⟨-, -, h1, h2, h3, h4⟩ := KCP.wndSize_rest k a b
    refine same rfl ?_
    simp only [KCP.rcv, h1, h2, h3, h4 hop]
  | noDelay a b c d => exact same rfl (KCP.noDelay_rest k a b c d).1
  | setMtu h => exact same rfl (KCP.setMtu_rest h).1
  | setStream on => exact same rfl rfl
  | idle hop h =>
    refine same ?_ h.rcv
    cases op <;> first | rfl | cases hop

/-- The control block and, as a ghost, the segments `Recv` has taken. -/
structure Recvd where
  kcp : KCP
  popped : List Segment

/-- A control block with the receive window `w`, which no operation changes. -/
def receiver (conv w : UInt32) : LTS Recvd Op where
  init s := s.kcp = { newKCP conv with rcvWnd := w } ∧ s.popped = []
  step s op s' := KeepsWnd op ∧ (∃ o, step s.kcp op = .ok (s'.kcp, o)) ∧
    s'.popped = s.popped ++ consumed s.kcp op

/-- The operations one after the other. -/
def Recvd.exec : Recvd → List Op → Go Recvd
  | s, [] => .ok s
  | s, op :: ops => do
    let (k, _) ← step s.kcp op
    exec ⟨k, s.popped ++ consumed s.kcp op⟩ ops

theorem Recvd.exec_run {conv w : UInt32} {ops : List Op} {s s' : Recvd} (h : exec s ops = .ok s')
    (hops : ∀ op ∈ ops, KeepsWnd op) : (receiver conv w).Run s ops s' := by
  induction ops generalizing s with
  | nil =>
    cases h
    exact .nil _
  | cons op ops ih =>
    obtain ⟨⟨k, o⟩, h1, h⟩ := Go.bind_ok h
    exact .cons ⟨hops op List.mem_cons_self, ⟨o, h1⟩, rfl⟩
      (ih h fun x hx => hops x (List.mem_cons_of_mem _ hx))

/-- Everything ever put into the queue is numbered 0, 1, 2, … and `rcv_nxt`
comes next. -/
structure Recvd.Ordered (s : Recvd) : Prop where
  run : Consec Segment.sn 0 (s.popped ++ s.kcp.rcvQueue)
  nxt : s.kcp.rcvNxt = u32 (s.popped ++ s.kcp.rcvQueue).length

theorem receiver_step {w : Nat} (hw : w < 2 ^ 31) {k k' : KCP} {op : Op} {o : Out}
    (h : step k op = .ok (k', o)) (hop : KeepsWnd op) (hi : k.rcv.Inv w) :
    k'.rcv.Inv w ∧ ∃ q, k.rcvQueue = consumed k op ++ q ∧ Rcv.Appends { k.rcv with queue := q } k'.rcv := by
  obtain ⟨e, hb, hcase⟩ := step_split h
  have hbody := Rcv.Inv.body hw hb hop hi
  rcases hcase with ⟨rfl, -, -⟩ | ⟨-, ft, clk, nx, hf⟩
  · exact hbody
  · obtain ⟨m, hm⟩ := KCP.flush_spec hf
    rw [hm.rcv]
    exact hbody

theorem receiver_inductive (conv w : UInt32) (hw : w.toNat < 2 ^ 31) :
    (receiver conv w).Inductive fun s => s.kcp.rcv.Inv w.toNat ∧ s.Ordered where
  init s := by
    rintro ⟨hk, hp⟩
    obtain ⟨k, popped⟩ := s
    dsimp only at hk hp
    subst hk hp
    refine ⟨⟨SegHeap.inv_empty _ _, .inr ?_, ?_, rfl⟩, trivial, rfl⟩
    · simp [newKCP, KCP.rcv, SegHeap.has, SegHeap.empty]
    · simp [newKCP, KCP.rcv]
  step s op s' := by
    rintro ⟨hi, hord⟩ ⟨hop, ⟨o, ho⟩, hp⟩
    obtain ⟨hi', q, hq, moved, hq', hn', hrun⟩ := receiver_step hw ho hop hi
    have hlog : s'.popped ++ s'.kcp.rcvQueue = (s.popped ++ s.kcp.rcvQueue) ++ moved := by
      have hq'' : s'.kcp.rcvQueue = q ++ moved := hq'
      rw [hp, hq'', hq]
      simp
    refine ⟨hi', ?_, ?_⟩
    · rw [hlog]
      refine hord.run.append ?_
      rw [UInt32.zero_add, ← hord.nxt]
      exact hrun
    · have hn'' : s'.kcp.rcvNxt = s.kcp.rcvNxt + u32 moved.length := hn'
      rw [hlog, hn'', hord.nxt, u32_add, ← List.length_append]

/-- **The receiver's invariant against any peer.** -/
theorem receiver_invariant (conv w : UInt32) (hw : w.toNat < 2 ^ 31) (s : Recvd)
    (hr : (receiver conv w).Reachable s) :
    s.kcp.rcvBuf.marks = (s.kcp.rcvBuf.segments.map Segment.sn).toFinset ∧
      (s.kcp.rcvBuf.segments.map Segment.sn).Nodup ∧
      BinHeap.IsHeap SegHeap.less s.kcp.rcvBuf.segments ∧
      (∀ x ∈ s.kcp.rcvBuf.segments, (x.sn - s.kcp.rcvNxt).toNat < w.toNat) ∧
      s.kcp.rcvBuf.segments.length ≤ w.toNat ∧
      s.kcp.rcvQueue.length ≤ w.toNat ∧
      (s.popped ++ s.kcp.rcvQueue).map Segment.sn =
        (List.range (s.popped ++ s.kcp.rcvQueue).length).map u32 ∧
      s.kcp.rcvNxt = u32 (s.popped ++ s.kcp.rcvQueue).length ∧
      (s.kcp.rcvQueue.length = w.toNat ∨ s.kcp.rcvNxt ∉ s.kcp.rcvBuf.segments.map Segment.sn) := by
  obtain ⟨hi, hord⟩ := (receiver_inductive conv w hw).reachable s hr
  refine ⟨hi.heap.marks, hi.heap.nodup, hi.heap.heap, hi.heap.window, hi.heap.length_le, hi.queue, ?_,
    hord.nxt, ?_⟩
  · rw [hord.run.map_eq]
    simp
  · rcases hi.settled with hfull | hno
    · exact .inl (Nat.le_antisymm hi.queue (hi.wnd ▸ hfull))
    · right
      intro hm
      obtain ⟨x, hx, he⟩ := List.mem_map.mp hm
      have : s.kcp.rcvBuf.has s.kcp.rcvNxt = true := (hi.heap.has_iff _).mpr ⟨x, hx, he⟩
      rw [show s.kcp.rcvBuf.has s.kcp.rcvNxt = false from hno] at this
      cases this

/-- A PUSH packet of conversation 7 with one byte of payload. -/
def pushPacket (sn : UInt32) : Bytes :=
  ({ conv := 7, cmd := IKCP_CMD_PUSH, wnd := 9, sn := sn, data := some [65] } : Segment).wire

/-- Numbers 1, 0 and 2 arrive at a window of two, then one is read. -/
theorem receiver_invariant_reordered : ∃ s, (receiver 7 2).Reachable s ∧
    (s.popped.map Segment.sn, s.kcp.rcvQueue.map Segment.sn, s.kcp.rcvNxt) = ([0], [1, 2], 3) ∧
    s.kcp.rcvQueue.length ≤ 2 := by
  let ops : List Op := [.input (pushPacket 1) .regular false fun _ => 0,
    .input (pushPacket 0) .regular false fun _ => 0, .input (pushPacket 2) .regular false fun _ => 0, .recv 10]
  obtain ⟨s, he, hs⟩ : ∃ s, Recvd.exec ⟨{ newKCP 7 with rcvWnd := 2 }, []⟩ ops = .ok s ∧
      (s.popped.map Segment.sn, s.kcp.rcvQueue.map Segment.sn, s.kcp.rcvNxt) = ([0], [1, 2], 3) :=
    ⟨_, rfl, by decide +kernel⟩
  have hr : (receiver 7 2).Reachable s := ⟨_, ops, ⟨rfl, rfl⟩, Recvd.exec_run he (by simp [ops, KeepsWnd])⟩
  exact ⟨s, hr, hs, (receiver_invariant 7 2 (by decide) s hr).2.2.2.2.2.1⟩

end KcpGo.L2
