import KcpGo.Core.InOrder
import KcpGo.L3Protocol.Receiver

/-!
# What the receive side keeps

Against any peer and with any window, `Input` only adds to what the receive
side holds, and moves the next numbers from the heap to the queue (`Fed`).

`Tracks taken kept v`: of the segments `kept` so far, `taken` have been read,
and the rest is in the queue and the heap of `v`, in order.

* `Tracks.inOrder`: what was received in order is what has been read, the
  queue, and the part of the heap that continues it.
* `fed_step`: operations other than `Recv`; `recv_takes`: `Recv`.
-/
namespace KcpGo.L2

open KcpGo.L1 KcpGo.Serial KcpGo.InOrder

/-- The tests of `Input` keep the heap within half of the number space. -/
def heapHalf : Nat := 2 ^ 31

namespace Rcv

/-- The segments of the receive side, those of the heap in no order. -/
def held (v : Rcv) : List Segment := v.queue ++ v.buf.segments

/-- The part of the heap that continues the queue. -/
def ready (v : Rcv) : List Segment := run Segment.sn v.buf.segments v.nxt

/-- `v'` is `v` with the segments `new`. -/
structure Fed (v v' : Rcv) (new : List Segment) : Prop where
  appends : v.Appends v'
  agrees : Agrees Segment.sn v'.held (v.held ++ new)
  heap : SegHeap.Inv v'.nxt heapHalf v'.buf

theorem Fed.refl {v : Rcv} (h : SegHeap.Inv v.nxt heapHalf v.buf) : Fed v v [] :=
  ⟨Appends.refl v, by rw [List.append_nil]; exact Agrees.refl _, h⟩

theorem Fed.trans {a b c : Rcv} {m n : List Segment} (h : Fed a b m) (h' : Fed b c n) : Fed a c (m ++ n) := by
  refine ⟨h.appends.trans h'.appends, ?_, h'.heap⟩
  rw [← List.append_assoc]
  exact h'.agrees.trans (h.agrees.append (Agrees.refl n))

end Rcv

/-- The move loop adds nothing. -/
theorem MoveSpec.fed {v v' : Rcv} {moved : List Segment} (h : MoveSpec heapHalf v v' moved)
    (hv : SegHeap.Inv v.nxt heapHalf v.buf) : v.Fed v' [] := by
  refine ⟨h.appends, ?_, h.heap⟩
  have hnodup : ((moved ++ v'.buf.segments).map Segment.sn).Nodup := (h.perm.map _).nodup_iff.mpr hv.nodup
  rw [List.append_nil, Rcv.held, Rcv.held, h.queue, List.append_assoc]
  exact (Agrees.refl v.queue).append (Agrees.of_perm h.perm hnodup)

theorem fed_moveAll {k : KCP} (h : SegHeap.Inv k.rcvNxt heapHalf k.rcvBuf) : k.rcv.Fed k.moveAll.rcv [] := by
  obtain ⟨moved, hm⟩ := KCP.moveAll_spec (Nat.le_refl _) h
  exact hm.fed h

theorem fed_push {k k' : KCP} {h : Header} {payload : Bytes} (hs : KCP.PushSpec k h payload k')
    (hi : SegHeap.Inv k.rcvNxt heapHalf k.rcvBuf) : ∃ new, k.rcv.Fed k'.rcv new := by
  cases hs with
  | beyond => exact ⟨[], Rcv.Fed.refl hi⟩
  | old => exact ⟨[], Rcv.Fed.refl hi⟩
  | repeated => exact ⟨[], fed_moveAll (k := k.ackPush h.sn h.ts) hi⟩
  | stored hb hn hr =>
    have hkey : SegHeap.key k.rcvNxt (KCP.pushed h payload) < heapHalf := by
      rw [itimediff, diff_nonneg] at hn
      exact hn
    have hheap : SegHeap.Inv k.rcvNxt heapHalf (k.rcvBuf.push (KCP.pushed h payload)) :=
      SegHeap.Inv.push hi (Nat.le_refl _) hkey hr
    have hadd : k.rcv.Fed { k.rcv with buf := k.rcvBuf.push (KCP.pushed h payload) } [KCP.pushed h payload] := by
      refine ⟨⟨[], by simp, by simp, trivial⟩, ?_, hheap⟩
      have hperm : (k.rcvBuf.push (KCP.pushed h payload)).segments.Perm (k.rcvBuf.segments ++ [KCP.pushed h payload]) :=
        (BinHeap.push_perm SegHeap.less k.rcvBuf.segments _).trans (List.perm_append_singleton _ _).symm
      rw [Rcv.held, Rcv.held, List.append_assoc]
      exact (Agrees.refl _).append (Agrees.of_perm hperm hheap.nodup)
    have hmove := fed_moveAll (k := { k.ackPush h.sn h.ts with rcvBuf := k.rcvBuf.push (KCP.pushed h payload) }) hheap
    exact ⟨_, hadd.trans hmove⟩

theorem fed_seg {pkt : PacketType} {h : Header} {payload : Bytes} {k k' : KCP} (hs : KCP.SegSpec pkt h payload k k')
    (hi : SegHeap.Inv k.rcvNxt heapHalf k.rcvBuf) : ∃ new, k.rcv.Fed k'.rcv new := by
  by_cases hp : h.cmd = IKCP_CMD_PUSH
  · obtain ⟨k₁, hr, -, hspec⟩ := hs.push hp
    have hi₁ : SegHeap.Inv k₁.rcv.nxt heapHalf k₁.rcv.buf := by
      rw [hr]
      exact hi
    obtain ⟨new, hf⟩ := fed_push hspec hi₁
    rw [hr] at hf
    exact ⟨new, hf⟩
  · rw [(hs.other hp).1]
    exact ⟨[], Rcv.Fed.refl hi⟩

/-- What an operation other than `Recv` does to the receive side; the window
may change. -/
theorem fed_body {k e : KCP} {op : Op} (h : Body k op e) (hop : ∀ room, op ≠ .recv room)
    (hi : SegHeap.Inv k.rcvNxt heapHalf k.rcvBuf) : ∃ new, k.rcv.Fed e.rcv new := by
  have same : e.rcv = k.rcv → ∃ new, k.rcv.Fed e.rcv new := by
    intro he
    rw [he]
    exact ⟨[], Rcv.Fed.refl hi⟩
  cases h with
  | send h =>
    obtain ⟨q, rfl, -⟩ := KCP.send_spec h
    exact same rfl
  | recv h => exact absurd rfl (hop _)
  | input h =>
    rcases KCP.inputBody_spec h with ⟨-, rfl, -⟩ | ⟨-, st, hl, hsame, -⟩
    · exact same rfl
    · obtain ⟨new, hf⟩ := KCP.inputLoop_keeps (P := fun x => ∃ new, k.rcv.Fed x.rcv new)
        (fun _ _ a b _ hs ⟨m, hm⟩ => by
          obtain ⟨n, hn⟩ := fed_seg hs hm.heap
          exact ⟨m ++ n, hm.trans hn⟩) hl ⟨[], Rcv.Fed.refl hi⟩
      rw [hsame.rcv]
      exact ⟨new, hf⟩
  | wndSize a b =>
    obtain ⟨-, -, hnxt, hbuf, hqueue, -⟩ := KCP.wndSize_rest k a b
    refine ⟨[], ⟨[], ?_, ?_, trivial⟩, ?_, ?_⟩
    · simp [KCP.rcv, hqueue]
    · simp [KCP.rcv, hnxt]
    · simp only [Rcv.held, KCP.rcv, hqueue, hbuf, List.append_nil]
      exact Agrees.refl _
    · simp only [KCP.rcv, hnxt, hbuf]
      exact hi
  | noDelay a b c d => exact same (KCP.noDelay_rest k a b c d).1
  | setMtu h => exact same (KCP.setMtu_rest h).1
  | setStream on => exact same rfl
  | idle hop h => exact same h.rcv

theorem fed_step {k k' : KCP} {op : Op} {o : Out} (h : step k op = .ok (k', o)) (hop : ∀ room, op ≠ .recv room)
    (hi : SegHeap.Inv k.rcvNxt heapHalf k.rcvBuf) : ∃ new, k.rcv.Fed k'.rcv new := by
  obtain ⟨e, hb, hcase⟩ := step_split h
  have hbody := fed_body hb hop hi
  rcases hcase with ⟨rfl, -, -⟩ | ⟨-, ft, clk, nx, hf⟩
  · exact hbody
  · obtain ⟨m, hm⟩ := KCP.flush_spec hf
    rw [hm.rcv]
    exact hbody

/-! ## `Recv` -/

theorem messageSize_eq (q : List Segment) : KCP.messageSize q = ((KCP.messageSegs q).flatMap Segment.bytes).length := by
  induction q with
  | nil => rfl
  | cons s q ih =>
    rw [KCP.messageSize, KCP.messageSegs]
    split
    · simp [Segment.len]
    · simp [ih, Segment.len]

/-- `PeekSize` is the size of the message `Recv` takes. -/
theorem peekSize_eq {k : KCP} (h : 0 ≤ k.peekSize) :
    k.peekSize = ((KCP.messageSegs k.rcvQueue).flatMap Segment.bytes).length := by
  unfold KCP.peekSize at h ⊢
  cases hq : k.rcvQueue with
  | nil => simp [hq] at h
  | cons s q =>
    simp only [hq] at h ⊢
    split at h
    · rename_i hz
      rw [if_pos hz]
      simp [KCP.messageSegs, hz, Segment.len]
    · rename_i hz
      rw [if_neg hz]
      split at h
      · cases h
      · rename_i hlen
        rw [if_neg hlen, messageSize_eq]

/-- `Recv` takes the first message out of the queue. -/
theorem recv_takes {k e : KCP} {room : Nat} {r : Int} {d : Bytes}
    (h : k.recv room = .ok (e, r, d)) (hr : k.readable room)
    (hi : SegHeap.Inv k.rcvNxt heapHalf k.rcvBuf) :
    ∃ q, k.rcvQueue = KCP.messageSegs k.rcvQueue ++ q ∧ d = (KCP.messageSegs k.rcvQueue).flatMap Segment.bytes ∧
      Rcv.Fed { k.rcv with queue := q } e.rcv [] := by
  rcases KCP.recv_spec h with ⟨hn, -⟩ | ⟨-, q, p, hm, rfl, -⟩
  · exact absurd hr hn
  · obtain ⟨hq, hd⟩ := KCP.mergeFragments_spec hm
    exact ⟨q, hq, hd, fed_moveAll (k := { k with rcvQueue := q }) hi⟩

/-! ## The history -/

/-- Of the segments `kept`, `taken` are read and the rest is held. -/
structure Tracks (taken kept : List Segment) (v : Rcv) : Prop where
  agrees : Agrees Segment.sn kept (taken ++ v.held)
  order : Consec Segment.sn 0 (taken ++ v.queue)
  nxt : v.nxt = u32 (taken ++ v.queue).length
  heap : SegHeap.Inv v.nxt heapHalf v.buf

namespace Tracks

variable {taken kept : List Segment} {v v' : Rcv}

theorem initial (conv : UInt32) : Tracks [] [] (newKCP conv).rcv :=
  ⟨Agrees.refl _, trivial, rfl, SegHeap.inv_empty _ _⟩

theorem fed (h : Tracks taken kept v) {new : List Segment} (hf : v.Fed v' new) :
    Tracks taken (kept ++ v'.held.diff v.held) v' := by
  obtain ⟨moved, hq, hn, hrun⟩ := hf.appends
  refine ⟨?_, ?_, ?_, hf.heap⟩
  · have hnew : Agrees Segment.sn (v'.held.diff v.held) new := hf.agrees.diff
    refine (h.agrees.append hnew).trans ?_
    rw [List.append_assoc]
    exact (Agrees.refl taken).append hf.agrees.symm
  · rw [hq, ← List.append_assoc]
    refine h.order.append ?_
    rw [UInt32.zero_add, ← h.nxt]
    exact hrun
  · rw [hn, hq, h.nxt, u32_add, ← List.append_assoc, ← List.length_append]

/-- Reading changes what is taken, not what is kept. -/
theorem take (h : Tracks taken kept v) {t q : List Segment} (hq : v.queue = t ++ q) :
    Tracks (taken ++ t) kept { v with queue := q } := by
  have hheld : taken ++ v.held = (taken ++ t) ++ Rcv.held { v with queue := q } := by simp [Rcv.held, hq]
  have hqueue : taken ++ v.queue = (taken ++ t) ++ q := by simp [hq]
  refine ⟨?_, ?_, ?_, h.heap⟩
  · rw [← hheld]
    exact h.agrees
  · rw [← hqueue]
    exact h.order
  · rw [← hqueue]
    exact h.nxt

theorem moved (h : Tracks taken kept v) (hf : v.Fed v' []) : Tracks taken kept v' := by
  have hfed := h.fed hf
  refine ⟨?_, hfed.order, hfed.nxt, hfed.heap⟩
  have hsame := hf.agrees
  rw [List.append_nil] at hsame
  exact h.agrees.trans ((Agrees.refl taken).append hsame.symm)

/-- **What was received in order** is what has been read, the queue, and the
part of the heap that continues it. -/
theorem inOrder (h : Tracks taken kept v) : inOrder Segment.sn kept = taken ++ v.queue ++ v.ready := by
  have hlen : v.buf.segments.length < 2 ^ 32 := Nat.lt_of_le_of_lt h.heap.length_le (by decide)
  have hagrees := h.agrees
  rw [Rcv.held, ← List.append_assoc] at hagrees
  rw [inOrder_eq hagrees h.order h.heap.nodup hlen, ← h.nxt]
  rfl

end Tracks
end KcpGo.L2
