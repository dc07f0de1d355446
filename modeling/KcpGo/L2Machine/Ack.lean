import KcpGo.L2Machine.State

/-!
# Acknowledgements on the sender: `parse_una`, `parse_ack`, `parse_fastack`,
`shrink_buf`, `update_ack` (`kcp.go`)
-/
namespace KcpGo.L2.KCP

open KcpGo.L1

/-- The smoothed RTT and its variance (Jacobson).
mirrors src/kcp.go:457-472 -/
def smoothRtt (k : KCP) (rtt : Int32) : KCP :=
  if k.rxSrtt = 0 then { k with rxSrtt := rtt, rxRttvar := rtt >>> (1 : Int32) }
  else
    let delta := rtt - k.rxSrtt
    let srtt := k.rxSrtt + (delta >>> (3 : Int32))
    let delta := if delta < 0 then -delta else delta
    { k with rxSrtt := srtt
             rxRttvar := if rtt < srtt - k.rxRttvar then k.rxRttvar + ((delta - k.rxRttvar) >>> (5 : Int32))
               else k.rxRttvar + ((delta - k.rxRttvar) >>> (2 : Int32)) }

/-- mirrors src/kcp.go:473-475 -/
def boundRto (k : KCP) : KCP :=
  let rto : UInt32 := k.rxSrtt.toUInt32 + max k.interval (k.rxRttvar.toUInt32 <<< (2 : UInt32))
  { k with rxRto := min (max k.rxMinrto rto) IKCP_RTO_MAX }

/-- mirrors src/kcp.go:455-476 (`update_ack`) -/
def updateAck (k : KCP) (rtt : Int32) : KCP := (k.smoothRtt rtt).boundRto

/-- The number of the oldest segment held, `nxt` when there is none. -/
def firstSn (nxt : UInt32) : List Segment → UInt32
  | [] => nxt
  | seg :: _ => seg.sn

/-- mirrors src/kcp.go:479-485 (`shrink_buf`) -/
def shrinkBuf (k : KCP) : KCP := { k with sndUna := firstSn k.sndNxt k.sndBuf }

/-- The scan of `parse_ack`: mark the segment numbered `sn` and recycle its
data.
mirrors src/kcp.go:495-509 (and 289-294, `recycleSegment`) -/
def markAcked (sn : UInt32) : List Segment → List Segment
  | [] => []
  | seg :: q =>
    if sn = seg.sn then { seg with acked := 1, data := none } :: q
    else if itimediff sn seg.sn < 0 then seg :: q
    else seg :: markAcked sn q

/-- mirrors src/kcp.go:490-510 (`parse_ack`) -/
def parseAck (k : KCP) (sn : UInt32) : KCP :=
  if itimediff sn k.sndUna < 0 ∨ 0 ≤ itimediff sn k.sndNxt then k
  else { k with sndBuf := markAcked sn k.sndBuf }

/-- The scan of `parse_fastack`; the flag is `shouldFastAck`.
mirrors src/kcp.go:520-533 -/
def bumpFastack (sn ts fastresend : UInt32) : List Segment → List Segment × Bool
  | [] => ([], false)
  | seg :: q =>
    if itimediff sn seg.sn < 0 then (seg :: q, false)
    else if sn ≠ seg.sn ∧ itimediff seg.ts ts ≤ 0 ∧ seg.fastack ≠ 0xFFFFFFFF then
      ({ seg with fastack := seg.fastack + 1 } :: (bumpFastack sn ts fastresend q).1,
        decide (fastresend ≤ seg.fastack + 1) || (bumpFastack sn ts fastresend q).2)
    else (seg :: (bumpFastack sn ts fastresend q).1, (bumpFastack sn ts fastresend q).2)

/-- mirrors src/kcp.go:514-536 (`parse_fastack`) -/
def parseFastack (k : KCP) (sn ts : UInt32) : KCP × Bool :=
  if itimediff sn k.sndUna < 0 ∨ 0 ≤ itimediff sn k.sndNxt then (k, false)
  else
    let r := bumpFastack sn ts k.fastresend.toUInt32 k.sndBuf
    ({ k with sndBuf := r.1 }, r.2)

/-- Number of leading segments below `una`.
mirrors src/kcp.go:541-550 -/
def unaCount (una : UInt32) : List Segment → Nat
  | [] => 0
  | seg :: q => if 0 < itimediff una seg.sn then unaCount una q + 1 else 0

/-- mirrors src/kcp.go:540-553 (`parse_una`) -/
def parseUna (k : KCP) (una : UInt32) : KCP × Nat :=
  ({ k with sndBuf := k.sndBuf.drop (unaCount una k.sndBuf) }, unaCount una k.sndBuf)

end KcpGo.L2.KCP
