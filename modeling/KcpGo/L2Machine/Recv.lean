import KcpGo.L2Machine.State

/-!
# The receive path: `PeekSize`, `Recv`, `parse_data` (`kcp.go`)

`Recv` and `parse_data` end in the same loop, which moves segments from the
reorder heap to `rcv_queue` while the next expected number is at the root
and the queue has room (`moveReady`).
-/
namespace KcpGo.L2.KCP

open KcpGo.L1

/-- Bytes up to and including the first segment with `frg = 0`.
mirrors src/kcp.go:311-318 -/
def messageSize : List Segment → Nat
  | [] => 0
  | s :: q => if s.frg = 0 then s.len else s.len + messageSize q

/-- `int(seg.frg+1)` is 8-bit arithmetic.
mirrors src/kcp.go:297-320 (`PeekSize`) -/
def peekSize (k : KCP) : Int :=
  match k.rcvQueue with
  | [] => -1
  | seg :: _ =>
    if seg.frg = 0 then seg.len
    else if k.rcvQueue.length < (seg.frg + 1).toNat then -1
    else messageSize k.rcvQueue

/-- The merge loop of `Recv` with `room` bytes of the destination left: what
it writes, and the queue it leaves.
mirrors src/kcp.go:345-361 -/
def mergeFragments : Nat → List Segment → Go (Bytes × List Segment)
  | _, [] => .ok ([], [])
  | room, seg :: q =>
    if room < seg.len then .error .sliceBounds
    else if seg.frg = 0 then .ok (seg.bytes, q)
    else do
      let (rest, q') ← mergeFragments (room - seg.len) q
      .ok (seg.bytes ++ rest, q')

/-- `for kcp.rcv_buf.Len() > 0 { ... }`, the argument being `Len()`.
mirrors src/kcp.go:364-374, 582-592 -/
def moveReady : Nat → KCP → KCP
  | 0, k => k
  | n + 1, k =>
    match k.rcvBuf.pop with
    | none => k
    | some (seg, h) =>
      if seg.sn = k.rcvNxt ∧ k.rcvQueue.length < k.rcvWnd.toNat then
        moveReady n { k with rcvBuf := h, rcvQueue := k.rcvQueue ++ [seg], rcvNxt := k.rcvNxt + 1 }
      else { k with rcvBuf := h.push seg }

def moveAll (k : KCP) : KCP := moveReady k.rcvBuf.segments.length k

/-- `Recv` into a destination of `room` bytes: the new state, the return
value and the bytes written.
mirrors src/kcp.go:329-383 (`Recv`) -/
def recv (k : KCP) (room : Nat) : Go (KCP × Int × Bytes) :=
  if k.peekSize < 0 then .ok (k, -1, [])
  else if (room : Int) < k.peekSize then .ok (k, -2, [])
  else do
    let (written, q) ← mergeFragments room k.rcvQueue
    let k' := moveAll { k with rcvQueue := q }
    -- fast recover: the window was closed and is open again
    let k' := if k'.rcvQueue.length < k'.rcvWnd.toNat ∧ k.rcvWnd.toNat ≤ k.rcvQueue.length then
      { k' with probe := k'.probe ||| IKCP_ASK_TELL } else k'
    .ok (k', written.length, written)

/-- `parse_data`; the payload is copied into a pool buffer. Returns whether
the segment was outside the window or a repeat.
mirrors src/kcp.go:561-595 -/
def parseData (k : KCP) (newseg : Segment) : Go (KCP × Bool) :=
  if 0 ≤ itimediff newseg.sn (k.rcvNxt + k.rcvWnd) ∨ itimediff newseg.sn k.rcvNxt < 0 then
    .ok (k, true)
  else if k.rcvBuf.has newseg.sn then .ok (moveAll k, true)
  else if maxPacketSize < newseg.len then .error .sliceBounds
  else .ok (moveAll { k with rcvBuf := k.rcvBuf.push newseg }, false)

/-- mirrors src/kcp.go:556-558 -/
def ackPush (k : KCP) (sn ts : UInt32) : KCP := { k with acklist := k.acklist ++ [⟨sn, ts⟩] }

/-- mirrors src/kcp.go:762-767 -/
def wndUnused (k : KCP) : UInt16 :=
  if k.rcvQueue.length < k.rcvWnd.toNat then UInt16.ofNat (k.rcvWnd.toNat - k.rcvQueue.length) else 0

end KcpGo.L2.KCP
