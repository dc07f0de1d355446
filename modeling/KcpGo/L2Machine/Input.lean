import KcpGo.L2Machine.Ack
import KcpGo.L2Machine.Flush

/-!
# `Input` and the operations of a KCP control block (`kcp.go`)

`inputLoop` is the header loop over a packet's bytes, `inputSeg` what it does
with one well-formed segment, `input` the whole call: the loop, the RTT
sample, the congestion window and the flush it may trigger. An error return
leaves the effects of the segments before it, as in the source.

`Op` and `step` collect the exported operations.
-/
namespace KcpGo.L2

open KcpGo.L1

/-- The variables of the header loop.
mirrors src/kcp.go:609-612 -/
structure InLoop where
  k : KCP
  latest : UInt32
  updateRTT : Bool
  flushSegments : Bool

namespace KCP

/-- What every accepted segment does first: remote window, una.
mirrors src/kcp.go:648-654 -/
def inputHead (k : KCP) (pkt : PacketType) (h : Header) : KCP × Nat :=
  let k := if pkt = .regular then { k with rmtWnd := h.wnd.toUInt32 } else k
  ((k.parseUna h.una).1.shrinkBuf, (k.parseUna h.una).2)

/-- The segment handed to `parse_data`.
mirrors src/kcp.go:670-674 -/
def pushed (h : Header) (payload : Bytes) : Segment :=
  { conv := h.conv, cmd := h.cmd, frg := h.frg, wnd := h.wnd, ts := h.ts, sn := h.sn, una := h.una,
    data := some payload }

/-- mirrors src/kcp.go:667-676 -/
def inputPush (k : KCP) (h : Header) (payload : Bytes) : Go KCP :=
  if itimediff h.sn (k.rcvNxt + k.rcvWnd) < 0 then
    if 0 ≤ itimediff h.sn k.rcvNxt then do
      let (k, _) ← (k.ackPush h.sn h.ts).parseData (pushed h payload)
      .ok k
    else .ok (k.ackPush h.sn h.ts)
  else .ok k

/-- One segment whose command is one of the four.
mirrors src/kcp.go:647-696 -/
def inputSeg (pkt : PacketType) (h : Header) (payload : Bytes) (st : InLoop) : Go InLoop :=
  let k := (st.k.inputHead pkt h).1
  let fl := st.flushSegments || decide (0 < (st.k.inputHead pkt h).2)
  if h.cmd = IKCP_CMD_ACK then
    let r := (k.parseAck h.sn).parseFastack h.sn h.ts
    .ok { k := r.1, latest := h.ts, updateRTT := true, flushSegments := fl || r.2 }
  else if h.cmd = IKCP_CMD_PUSH then do
    let k ← k.inputPush h payload
    .ok { st with k := k, flushSegments := fl }
  else if h.cmd = IKCP_CMD_WASK then
    .ok { st with k := { k with probe := k.probe ||| IKCP_ASK_TELL }, flushSegments := fl }
  else .ok { st with k := k, flushSegments := fl }

def isCmd (cmd : UInt8) : Bool :=
  cmd = IKCP_CMD_PUSH || cmd = IKCP_CMD_ACK || cmd = IKCP_CMD_WASK || cmd = IKCP_CMD_WINS

/-- The header loop; `some r` is an early `return r`. Each round takes at
least 24 bytes, so `len(data)` rounds are enough.
mirrors src/kcp.go:614-700 -/
def inputLoop (pkt : PacketType) : Nat → Bytes → InLoop → Go (InLoop × Option Int)
  | 0, _, st => .ok (st, none)
  | n + 1, data, st =>
    if data.length < IKCP_OVERHEAD then .ok (st, none)
    else
      let h := readHeader data
      let data := data.drop IKCP_OVERHEAD
      if h.conv ≠ st.k.conv then .ok (st, some (-1))
      else if data.length < h.length.toNat then .ok (st, some (-2))
      else if isCmd h.cmd = false then .ok (st, some (-3))
      else do
        let st ← inputSeg pkt h (data.take h.length.toNat) st
        inputLoop pkt n (data.drop h.length.toNat) st

/-- mirrors src/kcp.go:705-710 -/
def sampleRtt (pkt : PacketType) (st : InLoop) (clk : Clock) : KCP × Clock :=
  if st.updateRTT = true ∧ pkt = .regular then
    (if 0 ≤ itimediff (clk 0) st.latest then st.k.updateAck (itimediff (clk 0) st.latest) else st.k,
      clk.tail)
  else (st.k, clk)

/-- The congestion-avoidance step from `incr`, which divides.
mirrors src/kcp.go:725-732 -/
def growAvoid (k : KCP) (incr : UInt32) : Go KCP :=
  if incr = 0 then .error .divideByZero
  else
    let mss := k.mss
    let incr := incr + (mss * mss / incr + mss / 16)
    .ok { k with incr := incr
                 cwnd := if (k.cwnd + 1) * mss ≤ incr then
                     (if 0 < mss then (incr + mss - 1) / mss else incr + mss - 1)
                   else k.cwnd }

/-- Slow start below `ssthresh`, congestion avoidance above.
mirrors src/kcp.go:718-733 -/
def growRate (k : KCP) : Go KCP :=
  if k.cwnd < k.ssthresh then .ok { k with cwnd := k.cwnd + 1, incr := k.incr + k.mss }
  else growAvoid k (if k.incr < k.mss then k.mss else k.incr)

/-- mirrors src/kcp.go:734-737 -/
def capRate (k : KCP) : KCP :=
  if k.rmtWnd < k.cwnd then { k with cwnd := k.rmtWnd, incr := k.rmtWnd * k.mss } else k

/-- `una0` is `snd_una` on entry.
mirrors src/kcp.go:714-740 -/
def growCwnd (k : KCP) (una0 : UInt32) : Go KCP :=
  if k.nocwnd = 0 ∧ 0 < itimediff k.sndUna una0 ∧ k.cwnd < k.rmtWnd then do
    let k ← k.growRate
    .ok k.capRate
  else .ok k

/-- Everything `Input` does before the final flush: the state, the early
return code if any, `flushSegments`, and the clock readings still to come.
mirrors src/kcp.go:604-740 -/
def inputBody (k : KCP) (data : Bytes) (pkt : PacketType) (clk : Clock) :
    Go (KCP × Option Int × Bool × Clock) :=
  if data.length < IKCP_OVERHEAD then .ok (k, some (-1), false, clk)
  else do
    let (st, ret) ← inputLoop pkt data.length data ⟨k, 0, false, false⟩
    match ret with
    | some r => .ok (st.k, some r, st.flushSegments, clk)
    | none => do
      let (k', clk) := sampleRtt pkt st clk
      let k' ← k'.growCwnd k.sndUna
      .ok (k', none, st.flushSegments, clk)

/-- Which flush `Input` ends with.
mirrors src/kcp.go:743-758 -/
def flushWanted (k : KCP) (flushSegments ackNoDelay : Bool) : Option FlushType :=
  if flushSegments then some .full
  else if (k.mtu / UInt32.ofNat IKCP_OVERHEAD).toNat ≤ k.acklist.length then some .ackOnly
  else if ackNoDelay = true ∧ k.acklist ≠ [] then some .ackOnly
  else none

/-- The new state, the return value and the packets sent.
mirrors src/kcp.go:603-760 (`Input`) -/
def input (k : KCP) (data : Bytes) (pkt : PacketType) (ackNoDelay : Bool) (clk : Clock) :
    Go (KCP × Int × List Bytes) := do
  let (k, ret, fl, clk) ← inputBody k data pkt clk
  match ret with
  | some r => .ok (k, r, [])
  | none =>
    match k.flushWanted fl ackNoDelay with
    | none => .ok (k, 0, [])
    | some ft => do
      let (k, out, _) ← k.flush ft clk
      .ok (k, 0, out)

/-! ## The deprecated timer interface -/

/-- mirrors src/kcp.go:1031-1034 -/
def startTimer (k : KCP) (now : UInt32) : KCP :=
  if k.updated = 0 then { k with updated := 1, tsFlush := now } else k

/-- A clock too far from the timer resets it.
mirrors src/kcp.go:1037-1042 -/
def resync (k : KCP) (now : UInt32) : KCP :=
  if 10000 ≤ itimediff now k.tsFlush ∨ itimediff now k.tsFlush < -10000 then { k with tsFlush := now } else k

/-- Whether the timer has expired; then it is set again.
mirrors src/kcp.go:1044-1048 -/
def expire (k : KCP) (now : UInt32) : KCP × Bool :=
  if 0 ≤ itimediff now k.tsFlush then
    ({ k with tsFlush := if 0 ≤ itimediff now (k.tsFlush + k.interval) then now + k.interval
                         else k.tsFlush + k.interval }, true)
  else (k, false)

/-- The timer part of `Update`: whether this call flushes.
mirrors src/kcp.go:1031-1047 -/
def updateTimer (k : KCP) (now : UInt32) : KCP × Bool := ((k.startTimer now).resync now).expire now

/-- mirrors src/kcp.go:1028-1051 (`Update`) -/
def update (k : KCP) (clk : Clock) : Go (KCP × List Bytes) :=
  if (k.updateTimer (clk 0)).2 then do
    let (k, out, _) ← (k.updateTimer (clk 0)).1.flush .full clk.tail
    .ok (k, out)
  else .ok ((k.updateTimer (clk 0)).1, [])

/-- The scan of `Check`: `none` when some segment is already due, else the
least time left.
mirrors src/kcp.go:1079-1089 -/
def nextPacket (now : UInt32) : List Segment → Int32 → Option Int32
  | [], tm => some tm
  | s :: q, tm =>
    if itimediff s.resendts now ≤ 0 then none
    else nextPacket now q (if itimediff s.resendts now < tm then itimediff s.resendts now else tm)

/-- mirrors src/kcp.go:1058-1100 (`Check`) -/
def check (k : KCP) (now : UInt32) : UInt32 :=
  if k.updated = 0 then now
  else
    let late := itimediff now k.tsFlush
    let tsFlush := if 10000 ≤ late ∨ late < -10000 then now else k.tsFlush
    if 0 ≤ itimediff now tsFlush then now
    else match nextPacket now k.sndBuf 0x7fffffff with
      | none => now
      | some tmPacket =>
        let tmFlush := itimediff tsFlush now
        let minimal := if tmFlush ≤ tmPacket then tmFlush.toUInt32 else tmPacket.toUInt32
        now + (if k.interval ≤ minimal then k.interval else minimal)

end KCP

/-! ## Operations -/

/-- One call on a control block. `setStream` is the write to `kcp.stream` of
`UDPSession.SetStreamMode` (src/sess.go:618-626). -/
inductive Op where
  | send (buffer : Bytes)
  | recv (room : Nat)
  | peekSize
  | flush (ft : FlushType) (clk : Clock)
  | input (data : Bytes) (pkt : PacketType) (ackNoDelay : Bool) (clk : Clock)
  | noDelay (nodelay interval resend nc : Int)
  | wndSize (sndwnd rcvwnd : Int)
  | setMtu (mtu : Int)
  | setStream (on : Bool)
  | resetRTO (clk : Clock)
  | waitSnd
  | update (clk : Clock)
  | check (now : UInt32)

/-- What a call shows to its caller: the return value, the bytes `Recv`
wrote and the packets passed to `output`. -/
structure Out where
  ret : Int
  data : Bytes := []
  pkts : List Bytes := []
  deriving DecidableEq

def step (k : KCP) : Op → Go (KCP × Out)
  | .send buffer => do
    let (k, ret) ← k.send buffer
    .ok (k, ⟨ret, [], []⟩)
  | .recv room => do
    let (k, ret, data) ← k.recv room
    .ok (k, ⟨ret, data, []⟩)
  | .peekSize => .ok (k, ⟨k.peekSize, [], []⟩)
  | .flush ft clk => do
    let (k, pkts, next) ← k.flush ft clk
    .ok (k, ⟨next.toNat, [], pkts⟩)
  | .input data pkt ackNoDelay clk => do
    let (k, ret, pkts) ← k.input data pkt ackNoDelay clk
    .ok (k, ⟨ret, [], pkts⟩)
  | .noDelay a b c d => .ok (k.noDelay a b c d, ⟨0, [], []⟩)
  | .wndSize a b => .ok (k.wndSize a b, ⟨0, [], []⟩)
  | .setMtu mtu => do
    let (k, ret) ← k.setMtu mtu
    .ok (k, ⟨ret, [], []⟩)
  | .setStream on => .ok ({ k with stream := if on then 1 else 0 }, ⟨0, [], []⟩)
  | .resetRTO clk => .ok (k.resetRTO clk, ⟨0, [], []⟩)
  | .waitSnd => .ok (k, ⟨k.waitSnd, [], []⟩)
  | .update clk => do
    let (k, pkts) ← k.update clk
    .ok (k, ⟨0, [], pkts⟩)
  | .check now => .ok (k, ⟨(k.check now).toNat, [], []⟩)

end KcpGo.L2
