import KcpGo.L2Machine.Recv

/-!
# `flush` (`kcp.go:780-1021`)

The write position in `kcp.buffer` is the list of bytes written since the
last packet (`Writer.cur`); `Writer.out` are the packets passed to the output
callback, oldest first. Writing past the buffer is a panic.

The phases of the source are separate functions here, in the same order:
`flushAcks`, `probeTimer`, `flushProbes`, `fillWindow`, `resendLoop`, `updateCwnd`.
-/
namespace KcpGo.L2

open KcpGo.L1

structure Writer where
  cur : Bytes
  out : List Bytes
  deriving DecidableEq

namespace Writer

/-- mirrors src/kcp.go:1015-1021 (`makeSpace`) -/
def makeSpace (mtu : UInt32) (space : Nat) (w : Writer) : Writer :=
  if mtu.toNat < w.cur.length + space then ⟨[], w.out ++ [w.cur]⟩ else w

/-- `seg.encode(ptr)`; the bound check on `ptr[IKCP_OVERHEAD-1]` panics.
mirrors src/kcp.go:137-149 -/
def encode (bufLen : Nat) (seg : Segment) (w : Writer) : Go Writer :=
  if bufLen < w.cur.length + IKCP_OVERHEAD then .error .sliceBounds
  else .ok { w with cur := w.cur ++ seg.header }

/-- `copy(ptr, data); ptr = ptr[len(data):]`.
mirrors src/kcp.go:941-942 -/
def copyData (bufLen : Nat) (data : Bytes) (w : Writer) : Go Writer :=
  if bufLen < w.cur.length + data.length then .error .sliceBounds
  else .ok { w with cur := w.cur ++ data }

/-- The final `kcp.output` of `flush`.
mirrors src/kcp.go:1002-1004 -/
def finish (w : Writer) : List Bytes := if w.cur = [] then w.out else w.out ++ [w.cur]

end Writer

namespace KCP

/-- Phase 1. `seg` is the header template; it keeps the `sn` and `ts` of the
last ACK written.
mirrors src/kcp.go:792-802 -/
def flushAcks (k : KCP) : List AckItem → Segment → Writer → Go (Segment × Writer)
  | [], seg, w => .ok (seg, w)
  | ack :: rest, seg, w =>
    if 0 ≤ itimediff ack.sn k.rcvNxt ∨ rest = [] then do
      let w ← (w.makeSpace k.mtu IKCP_OVERHEAD).encode k.bufLen { seg with sn := ack.sn, ts := ack.ts }
      flushAcks k rest { seg with sn := ack.sn, ts := ack.ts } w
    else flushAcks k rest seg (w.makeSpace k.mtu IKCP_OVERHEAD)

/-- Phase 2.
mirrors src/kcp.go:807-828 -/
def probeTimer (k : KCP) (clk : Clock) : KCP × Clock :=
  if k.rmtWnd = 0 then
    (if k.probeWait = 0 then
      { k with probeWait := IKCP_PROBE_INIT, tsProbe := clk 0 + IKCP_PROBE_INIT }
    else if 0 ≤ itimediff (clk 0) k.tsProbe then
      let wait := if k.probeWait < IKCP_PROBE_INIT then IKCP_PROBE_INIT else k.probeWait
      let wait := wait + wait / 2
      let wait := if IKCP_PROBE_LIMIT < wait then IKCP_PROBE_LIMIT else wait
      { k with probeWait := wait, tsProbe := clk 0 + wait, probe := k.probe ||| IKCP_ASK_SEND }
    else k, clk.tail)
  else ({ k with tsProbe := 0, probeWait := 0 }, clk)

/-- One probe command of phase 3.
mirrors src/kcp.go:831-848 -/
def flushProbe (k : KCP) (flag : UInt32) (cmd : UInt8) (seg : Segment) (w : Writer) :
    Go (Segment × Writer) :=
  if k.probe &&& flag ≠ 0 then do
    let w ← (w.makeSpace k.mtu IKCP_OVERHEAD).encode k.bufLen { seg with cmd := cmd }
    .ok ({ seg with cmd := cmd }, w)
  else .ok (seg, w)

/-- Phase 3.
mirrors src/kcp.go:831-850 -/
def flushProbes (k : KCP) (seg : Segment) (w : Writer) : Go (Segment × Writer) := do
  let (seg, w) ← flushProbe k IKCP_ASK_SEND IKCP_CMD_WASK seg w
  flushProbe k IKCP_ASK_TELL IKCP_CMD_WINS seg w

/-- The effective window of phase 4.
mirrors src/kcp.go:854-857 -/
def sendWindow (k : KCP) : UInt32 :=
  if k.nocwnd = 0 then min k.cwnd (min k.sndWnd k.rmtWnd) else min k.sndWnd k.rmtWnd

/-- The segment as it enters `snd_buf`. -/
def numbered (conv sn : UInt32) (s : Segment) : Segment :=
  { s with conv := conv, cmd := IKCP_CMD_PUSH, sn := sn }

/-- The loop of phase 4 on what is left of `snd_queue`; the number counts
the segments moved.
mirrors src/kcp.go:859-876 -/
def fillWindow (cwnd : UInt32) (k : KCP) : List Segment → KCP × Nat
  | [] => ({ k with sndQueue := [] }, 0)
  | newseg :: q =>
    if 0 ≤ itimediff k.sndNxt (k.sndUna + cwnd) then ({ k with sndQueue := newseg :: q }, 0)
    else
      let r := fillWindow cwnd { k with sndBuf := k.sndBuf ++ [numbered k.conv k.sndNxt newseg]
                                        sndNxt := k.sndNxt + 1 } q
      (r.1, r.2 + 1)

/-- Why phase 5 sends a segment. -/
inductive Reason where
  | initial | fast | early | timeout
  deriving DecidableEq, Repr

/-- The branch phase 5 takes; `none`: not sent.
mirrors src/kcp.go:901-929 (conditions) -/
def reason (resent : UInt32) (newSegs : Nat) (current : UInt32) (s : Segment) : Option Reason :=
  if s.xmit = 0 then some .initial
  else if resent ≤ s.fastack ∧ s.fastack ≠ 0xFFFFFFFF then some .fast
  else if 0 < s.fastack ∧ s.fastack ≠ 0xFFFFFFFF ∧ newSegs = 0 then some .early
  else if 0 ≤ itimediff current s.resendts then some .timeout
  else none

/-- The segment's timer after the branch.
mirrors src/kcp.go:901-929 (assignments) -/
def rearm (k : KCP) (current : UInt32) (s : Segment) : Reason → Segment
  | .initial => { s with rto := k.rxRto, resendts := current + k.rxRto }
  | .fast => { s with fastack := 0xFFFFFFFF, rto := k.rxRto, resendts := current + k.rxRto }
  | .early => { s with fastack := 0xFFFFFFFF, rto := k.rxRto, resendts := current + k.rxRto }
  | .timeout =>
    let rto := s.rto + (if k.nodelay = 0 then k.rxRto else k.rxRto / 2)
    { s with fastack := 0, rto := rto, resendts := current + rto }

/-- The variables of phase 5: `current`, the clock readings still to come,
the writer, `kcp.state`, the counters and `nextUpdate`. -/
structure Xmit where
  current : UInt32
  clk : Clock
  w : Writer
  state : UInt32
  change : Nat
  lost : Nat
  nextUpdate : UInt32

/-- mirrors src/kcp.go:954-956 -/
def nearest (x : Xmit) (s : Segment) : Xmit :=
  if 0 < itimediff s.resendts x.current ∧ (itimediff s.resendts x.current).toUInt32 < x.nextUpdate then
    { x with nextUpdate := (itimediff s.resendts x.current).toUInt32 }
  else x

/-- The segment as it goes out.
mirrors src/kcp.go:931-936 (with the assignments of the branch taken) -/
def stamp (k : KCP) (seg : Segment) (r : Reason) (x : Xmit) (s : Segment) : Segment :=
  { rearm k x.current s r with xmit := s.xmit + 1, ts := x.clk 0, wnd := seg.wnd, una := seg.una }

/-- The variables after sending `s`; `w` is the writer then.
mirrors src/kcp.go:906-929 (counters), 932, 944-950 -/
def count (k : KCP) (r : Reason) (s : Segment) (x : Xmit) (w : Writer) : Xmit :=
  { x with current := x.clk 0
           clk := x.clk.tail
           w := w
           state := if k.deadLink ≤ s.xmit then 0xFFFFFFFF else x.state
           change := if r = .fast ∨ r = .early then x.change + 1 else x.change
           lost := if r = .timeout then x.lost + 1 else x.lost }

/-- Sending one segment: stamp it, encode it, count it.
mirrors src/kcp.go:931-951 -/
def transmit (k : KCP) (seg : Segment) (r : Reason) (s : Segment) (x : Xmit) : Go (Segment × Xmit) := do
  let w ← (x.w.makeSpace k.mtu (IKCP_OVERHEAD + (stamp k seg r x s).len)).encode k.bufLen (stamp k seg r x s)
  let w ← w.copyData k.bufLen (stamp k seg r x s).bytes
  .ok (stamp k seg r x s, count k r (stamp k seg r x s) x w)

/-- One iteration of phase 5.
mirrors src/kcp.go:896-956 -/
def resendOne (k : KCP) (seg : Segment) (resent : UInt32) (newSegs : Nat) (s : Segment) (x : Xmit) :
    Go (Segment × Xmit) :=
  if s.acked = 1 then .ok (s, x)
  else match reason resent newSegs x.current s with
    | none => .ok (s, nearest x s)
    | some r => do
      let (s, x) ← transmit k seg r s x
      .ok (s, nearest x s)

/-- mirrors src/kcp.go:895-957 -/
def resendLoop (k : KCP) (seg : Segment) (resent : UInt32) (newSegs : Nat) :
    List Segment → Xmit → Go (List Segment × Xmit)
  | [], x => .ok ([], x)
  | s :: q, x => do
    let (s, x) ← resendOne k seg resent newSegs s x
    let (q, x) ← resendLoop k seg resent newSegs q x
    .ok (s :: q, x)

/-- Rate halving after a fast retransmit.
mirrors src/kcp.go:979-986 -/
def halveRate (resent : UInt32) (change : Nat) (k : KCP) : KCP :=
  if 0 < change then
    let ssthresh := max ((k.sndNxt - k.sndUna) / 2) IKCP_THRESH_MIN
    { k with ssthresh := ssthresh, cwnd := ssthresh + resent, incr := (ssthresh + resent) * k.mss }
  else k

/-- Restart after a timeout.
mirrors src/kcp.go:989-993 -/
def restartRate (cwnd : UInt32) (lost : Nat) (k : KCP) : KCP :=
  if 0 < lost then { k with ssthresh := max (cwnd / 2) IKCP_THRESH_MIN, cwnd := 1, incr := k.mss } else k

/-- mirrors src/kcp.go:995-998 -/
def floorRate (k : KCP) : KCP := if k.cwnd < 1 then { k with cwnd := 1, incr := k.mss } else k

/-- Phase 6, `cwnd` being the window of phase 4.
mirrors src/kcp.go:978-999 -/
def updateCwnd (k : KCP) (cwnd resent : UInt32) (change lost : Nat) : KCP :=
  if k.nocwnd ≠ 0 then k else floorRate (restartRate cwnd lost (halveRate resent change k))

/-- `resent` (src/kcp.go:879-882). -/
def resentOf (k : KCP) : UInt32 := if k.fastresend ≤ 0 then 0xFFFFFFFF else k.fastresend.toUInt32

/-- The header template `flush` starts from (src/kcp.go:781-785). -/
def template (k : KCP) : Segment :=
  { conv := k.conv, cmd := IKCP_CMD_ACK, wnd := k.wndUnused, una := k.rcvNxt }

/-- Phase 5: only a full flush goes through `snd_buf`.
mirrors src/kcp.go:894-958 -/
def resendBuf (k : KCP) (ft : FlushType) (seg : Segment) (newSegs : Nat) (x : Xmit) :
    Go (List Segment × Xmit) :=
  match ft with
  | .full => resendLoop k seg k.resentOf newSegs k.sndBuf x
  | .ackOnly => .ok (k.sndBuf, x)

/-- Phases 5 and 6 on the state after phase 4.
mirrors src/kcp.go:879-1010 -/
def flushData (k : KCP) (ft : FlushType) (clk : Clock) (seg : Segment) (newSegs : Nat) (w : Writer) :
    Go (KCP × List Bytes × UInt32) := do
  let (buf, x) ← resendBuf k ft seg newSegs ⟨clk 0, clk.tail, w, k.state, 0, 0, k.interval⟩
  let k' := updateCwnd { k with sndBuf := buf, state := x.state } k.sendWindow k.resentOf x.change x.lost
  .ok (k', x.w.finish, x.nextUpdate)

/-- The new state, the packets passed to `output` and `nextUpdate`.
mirrors src/kcp.go:780-1010 (`flush`) -/
def flush (k : KCP) (ft : FlushType) (clk : Clock) : Go (KCP × List Bytes × UInt32) := do
  let (seg, w) ← flushAcks k k.acklist k.template ⟨[], []⟩
  let (k, clk) := probeTimer { k with acklist := [] } clk
  let (seg, w) ← flushProbes k seg w
  let (k, newSegs) := fillWindow k.sendWindow { k with probe := 0 } k.sndQueue
  flushData k ft clk seg newSegs w

end KCP
end KcpGo.L2
