import KcpGo.Core.GoRun
import KcpGo.L2Machine.SegHeap

/-!
# The KCP control block, its setters and `Send` (`kcp.go`)

All counters, windows and timers are `UInt32` / `Int32` and wrap as in Go.
The ring buffers are lists (`L2Machine` uses them as FIFO queues only), the
encoding buffer is its length (`flush` never reads a byte it did not write
in the same call), and a pool buffer is its bytes with the capacity
`maxPacketSize`. `int` arguments are `Int`.

The i-th reading of `currentMs()` inside one call is `clk i`.
-/
namespace KcpGo.L2

open KcpGo.L1

/-! Constants (src/kcp.go:32-64, src/sess.go:80). -/
def IKCP_RTO_NDL : UInt32 := 30
def IKCP_RTO_MIN : UInt32 := 100
def IKCP_RTO_DEF : UInt32 := 200
def IKCP_RTO_MAX : UInt32 := 60000
def IKCP_ASK_SEND : UInt32 := 1
def IKCP_ASK_TELL : UInt32 := 2
def IKCP_WND_SND : UInt32 := 32
def IKCP_WND_RCV : UInt32 := 32
def IKCP_MTU_DEF : UInt32 := 1400
def IKCP_INTERVAL : UInt32 := 100
def IKCP_DEADLINK : UInt32 := 20
def IKCP_THRESH_INIT : UInt32 := 2
def IKCP_THRESH_MIN : UInt32 := 2
def IKCP_PROBE_INIT : UInt32 := 500
def IKCP_PROBE_LIMIT : UInt32 := 120000
def maxPacketSize : Nat := 1472

/-- src/kcp.go:66-71 -/
inductive PacketType where
  | regular | fec
  deriving DecidableEq, Repr

/-- src/kcp.go:73-78 -/
inductive FlushType where
  | ackOnly | full
  deriving DecidableEq, Repr

/-- src/kcp.go:249-252 -/
structure AckItem where
  sn : UInt32
  ts : UInt32
  deriving DecidableEq, Repr

/-- Readings of `currentMs()` in the order a call makes them. -/
abbrev Clock := Nat → UInt32

def Clock.tail (clk : Clock) : Clock := fun i => clk (i + 1)

/-- mirrors src/kcp.go:193-247 (less the trace logger and the output
callback; `bufLen` is `len(kcp.buffer)`) -/
structure KCP where
  conv : UInt32
  mtu : UInt32
  mss : UInt32
  state : UInt32
  sndUna : UInt32
  sndNxt : UInt32
  rcvNxt : UInt32
  ssthresh : UInt32
  rxRttvar : Int32
  rxSrtt : Int32
  rxRto : UInt32
  rxMinrto : UInt32
  sndWnd : UInt32
  rcvWnd : UInt32
  rmtWnd : UInt32
  cwnd : UInt32
  incr : UInt32
  probe : UInt32
  tsProbe : UInt32
  probeWait : UInt32
  interval : UInt32
  tsFlush : UInt32
  nodelay : UInt32
  updated : UInt32
  deadLink : UInt32
  fastresend : Int32
  nocwnd : Int32
  stream : Int32
  sndQueue : List Segment
  rcvQueue : List Segment
  sndBuf : List Segment
  rcvBuf : SegHeap
  acklist : List AckItem
  bufLen : Nat
  deriving DecidableEq

/-- mirrors src/kcp.go:259-280 (`NewKCP`) -/
def newKCP (conv : UInt32) : KCP where
  conv := conv
  mtu := IKCP_MTU_DEF
  mss := IKCP_MTU_DEF - UInt32.ofNat IKCP_OVERHEAD
  state := 0
  sndUna := 0
  sndNxt := 0
  rcvNxt := 0
  ssthresh := IKCP_THRESH_INIT
  rxRttvar := 0
  rxSrtt := 0
  rxRto := IKCP_RTO_DEF
  rxMinrto := IKCP_RTO_MIN
  sndWnd := IKCP_WND_SND
  rcvWnd := IKCP_WND_RCV
  rmtWnd := IKCP_WND_RCV
  cwnd := 0
  incr := 0
  probe := 0
  tsProbe := 0
  probeWait := 0
  interval := IKCP_INTERVAL
  tsFlush := IKCP_INTERVAL
  nodelay := 0
  updated := 0
  deadLink := IKCP_DEADLINK
  fastresend := 0
  nocwnd := 0
  stream := 0
  sndQueue := []
  rcvQueue := []
  sndBuf := []
  rcvBuf := .empty
  acklist := []
  bufLen := (IKCP_MTU_DEF.toNat + IKCP_OVERHEAD) * 3

namespace KCP

/-! ## Setters -/

/-- The buffer size `SetMtu` needs for the segments it finds queued.
mirrors src/kcp.go:1109-1118 -/
def segRoom (segs : List Segment) (size : Int) : Int :=
  segs.foldl (fun m s => if m < (IKCP_OVERHEAD + s.len : Nat) then (IKCP_OVERHEAD + s.len : Nat) else m)
    size

/-- `int` arithmetic is 64 bits wide, so the buffer size can wrap; `make`
panics on a negative one. The allocation limit, far above any packet, is left out.
mirrors src/kcp.go:1103-1124 (`SetMtu`) -/
def setMtu (k : KCP) (mtu : Int) : Go (KCP × Int) :=
  if mtu ≤ IKCP_OVERHEAD then .ok (k, -1)
  else
    let bufferSize := segRoom k.sndQueue (segRoom k.sndBuf (((mtu + IKCP_OVERHEAD) * 3).bmod (2 ^ 64)))
    if bufferSize < 0 then .error .makeslice
    else .ok ({ k with mtu := UInt32.ofInt mtu
                       mss := UInt32.ofInt mtu - UInt32.ofNat IKCP_OVERHEAD
                       bufLen := bufferSize.toNat }, 0)

/-- mirrors src/kcp.go:1133-1157 (`NoDelay`) -/
def noDelay (k : KCP) (nodelay interval resend nc : Int) : KCP :=
  let k := if nodelay < 0 then k
    else { k with nodelay := UInt32.ofInt nodelay
                  rxMinrto := if nodelay ≠ 0 then IKCP_RTO_NDL else IKCP_RTO_MIN }
  let k := if interval < 0 then k
    else { k with interval := UInt32.ofInt (if 5000 < interval then 5000
                                            else if interval < 10 then 10 else interval) }
  let k := if resend < 0 then k else { k with fastresend := Int32.ofInt resend }
  if nc < 0 then k else { k with nocwnd := Int32.ofInt nc }

/-- mirrors src/kcp.go:1161-1169 (`WndSize`) -/
def wndSize (k : KCP) (sndwnd rcvwnd : Int) : KCP :=
  let k := if 0 < sndwnd then { k with sndWnd := UInt32.ofInt sndwnd } else k
  if 0 < rcvwnd then { k with rcvWnd := UInt32.ofInt rcvwnd } else k

/-- mirrors src/kcp.go:1191-1198 (`ResetRTO`) -/
def resetRTO (k : KCP) (clk : Clock) : KCP :=
  { k with sndBuf := k.sndBuf.map fun s => { s with rto := k.rxRto, resendts := clk 0 } }

/-- mirrors src/kcp.go:1172-1174 -/
def waitSnd (k : KCP) : Nat := k.sndBuf.length + k.sndQueue.length

/-! ## Send -/

/-- Capacity behind `seg.data`: a pool buffer, or nothing for nil. -/
def dataCap (s : Segment) : Nat := if s.data.isSome then maxPacketSize else 0

/-- Stream mode: fill up the last queued segment. Returns the queue and the
bytes left over.
mirrors src/kcp.go:398-414 -/
def extendTail (mss : Nat) (q : List Segment) (buffer : Bytes) : Go (List Segment × Bytes) :=
  match q.getLast? with
  | none => .ok (q, buffer)
  | some seg =>
    if seg.len < mss then
      let extend := min buffer.length (mss - seg.len)
      if dataCap seg < seg.len + extend then .error .sliceBounds
      else .ok (q.dropLast ++ [{ seg with data := some (seg.bytes ++ buffer.take extend) }],
        buffer.drop extend)
    else .ok (q, buffer)

/-- The fragment loop of `Send` with `n` fragments to go.
mirrors src/kcp.go:435-448 (and 283-286, `newSegment`) -/
def fragments (stream : Int32) (mss : Nat) : Nat → Bytes → Go (List Segment)
  | 0, _ => .ok []
  | n + 1, buffer =>
    let size := min buffer.length mss
    if maxPacketSize < size then .error .sliceBounds
    else do
      let rest ← fragments stream mss n (buffer.drop size)
      .ok ({ frg := if stream = 0 then UInt8.ofNat n else 0, data := some (buffer.take size) } :: rest)

/-- Number of segments for `len` bytes.
mirrors src/kcp.go:421-433 -/
def fragCount (mss len : Nat) : Go Nat :=
  if len ≤ mss then .ok 1
  else if mss = 0 then .error .divideByZero
  else .ok ((len + mss - 1) / mss)

/-- The part of `Send` after stream coalescing.
mirrors src/kcp.go:421-449 -/
def sendFresh (k : KCP) (buffer : Bytes) : Go (KCP × Int) := do
  let count ← fragCount k.mss.toNat buffer.length
  if 255 < count then .ok (k, -2)
  else do
    let segs ← fragments k.stream k.mss.toNat count buffer
    .ok ({ k with sndQueue := k.sndQueue ++ segs }, 0)

/-- mirrors src/kcp.go:386-450 (`Send`) -/
def send (k : KCP) (buffer : Bytes) : Go (KCP × Int) :=
  if buffer = [] then .ok (k, -1)
  else if k.stream = 0 then k.sendFresh buffer
  else do
    let (q, left) ← extendTail k.mss.toNat k.sndQueue buffer
    if left = [] then .ok ({ k with sndQueue := q }, 0)
    else KCP.sendFresh { k with sndQueue := q } left

end KCP
end KcpGo.L2
