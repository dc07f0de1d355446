import KcpGo.Core.GoState
import KcpGo.Core.Ledger
import KcpGo.L2Machine.FecDecoder
import KcpGo.L2Machine.Input

/-!
# The pool buffers of a control block (`kcp.go`, `bufferpool.go`)

The control block again, with the buffers of `defaultBufferPool` told apart:
a segment stands beside the number of the buffer behind its data (`Cell`).
Every `Get`, `Put`, read and write goes through the books of the pool, with
what is held at that moment. `vars` are the buffers in variables of the calls
in progress.

`World.kcp` forgets the buffers. `Refines` says of a function here that it
keeps the books, and does to the control block what the function of the same
name in the modules before does.
-/
namespace KcpGo.L2.Buffers

open KcpGo.L1 KcpGo.Ledger

/-- Where a buffer is held: `segment` is a segment variable of the call in
progress, `decode` the variables of `fecDecoder.decode`, and `recovered` the
list that `kcpInput` goes through. -/
inductive Place where
  | sndQueue | sndBuf | rcvBuf | rcvQueue
  | shard (shardId : UInt32)
  | segment
  | decode
  | recovered
  deriving DecidableEq

abbrev Held := List (Place × Nat)

/-- A segment, and the buffer behind its data if that is not nil. -/
abbrev Cell := Segment × Nat

/-- A packet in the buffer with the number. -/
abbrev Packet := Bytes × Nat

def held (p : Place) (q : List Cell) : Held := (q.filter fun c => c.1.data.isSome).map fun c => (p, c.2)

/-- A shard set with the buffers of its packets. -/
structure ShardCells where
  elements : List Packet
  marks : Finset UInt32

/-- A decoder with its shard sets apart. -/
structure DecoderCells where
  dec : FecDecoder
  shardSet : Table UInt32 ShardCells

def DecoderCells.owned (d : DecoderCells) : Held :=
  d.shardSet.entries.flatMap fun e => e.2.elements.map fun pkt => (.shard e.1, pkt.2)

/-- The decoder of a session if there is one, and the buffers in variables of
the call of `decode` in progress. -/
structure FecCells where
  decoder : Option DecoderCells
  decode : List Nat

def heldFec (fec : FecCells) : Held :=
  (fec.decoder.map DecoderCells.owned).getD [] ++ fec.decode.map fun b => (.decode, b)

/-- A control block with its queues apart, a decoder and the books. -/
structure World where
  ctl : KCP
  sndQueue : List Cell
  sndBuf : List Cell
  rcvBuf : List Cell
  rcvQueue : List Cell
  fec : FecCells
  books : Books Place

namespace World

def kcp (w : World) : KCP :=
  { w.ctl with sndQueue := w.sndQueue.map Prod.fst
               sndBuf := w.sndBuf.map Prod.fst
               rcvBuf := ⟨w.rcvBuf.map Prod.fst, w.ctl.rcvBuf.marks⟩
               rcvQueue := w.rcvQueue.map Prod.fst }

def owned (w : World) : Held :=
  held .sndQueue w.sndQueue ++ held .sndBuf w.sndBuf ++ held .rcvBuf w.rcvBuf ++
    held .rcvQueue w.rcvQueue ++ heldFec w.fec

/-- Only the books changed. -/
def keep (w : World) (bk : Books Place) : World := { w with books := bk }

end World

abbrev M (α : Type) := GoM World α

/-! ## The pool -/

/-- `defaultBufferPool.Get()` -/
def getBuf (vars : Held) : M Nat := do
  let w ← get
  set (w.keep (w.books.get (w.owned ++ vars)))
  pure w.books.next

/-- `defaultBufferPool.Put(b)` -/
def putBuf (vars : Held) (b : Nat) : M Unit :=
  modify fun w => w.keep (w.books.put (w.owned ++ vars) b)

/-- A read of or a write to the buffer. -/
def useBuf (vars : Held) (b : Nat) : M Unit :=
  modify fun w => w.keep (w.books.use (w.owned ++ vars) b)

/-- `defaultBufferPool.Get()[:size]` -/
def getSlice (vars : Held) (size : Nat) : M Nat := do
  let b ← getBuf vars
  if maxPacketSize < size then throw .sliceBounds else pure b

/-- A read of `seg.data`; there is nothing to read in nil. -/
def useSeg (vars : Held) (seg : Cell) : M Unit := if seg.1.data.isSome then useBuf vars seg.2 else pure ()

/-- mirrors src/kcp.go:289-294 (`recycleSegment`) -/
def recycleSegment (vars : Held) (seg : Cell) : M Cell :=
  if seg.1.data.isSome then do
    putBuf vars seg.2
    pure ({ seg.1 with data := none }, seg.2)
  else pure seg

/-! ## `Send` -/

/-- mirrors src/kcp.go:398-414 -/
def extendTail (vars : Held) (buffer : Bytes) : M Bytes := do
  let w ← get
  match w.sndQueue.getLast? with
  | none => pure buffer
  | some seg =>
    if seg.1.len < w.ctl.mss.toNat then
      let extend := min buffer.length (w.ctl.mss.toNat - seg.1.len)
      if KCP.dataCap seg.1 < seg.1.len + extend then throw .sliceBounds
      else do
        useBuf vars seg.2
        modify fun w => { w with
          sndQueue := w.sndQueue.dropLast ++
            [({ seg.1 with data := some (seg.1.bytes ++ buffer.take extend) }, seg.2)] }
        pure (buffer.drop extend)
    else pure buffer

/-- mirrors src/kcp.go:435-448 (and 283-286, `newSegment`) -/
def fragments (vars : Held) : Nat → Bytes → M Unit
  | 0, _ => pure ()
  | n + 1, buffer => do
    let w ← get
    let size := min buffer.length w.ctl.mss.toNat
    let b ← getSlice vars size
    useBuf ((.segment, b) :: vars) b
    let seg : Segment := { frg := if w.ctl.stream = 0 then UInt8.ofNat n else 0, data := some (buffer.take size) }
    modify fun w => { w with sndQueue := w.sndQueue ++ [(seg, b)] }
    fragments vars n (buffer.drop size)

/-- mirrors src/kcp.go:421-449 -/
def sendFresh (vars : Held) (buffer : Bytes) : M Int := do
  let w ← get
  let count ← GoM.call (KCP.fragCount w.ctl.mss.toNat buffer.length)
  if 255 < count then pure (-2)
  else do
    fragments vars count buffer
    pure 0

/-- mirrors src/kcp.go:386-450 (`Send`) -/
def send (vars : Held) (buffer : Bytes) : M Int := do
  let w ← get
  if buffer = [] then pure (-1)
  else if w.ctl.stream = 0 then sendFresh vars buffer
  else do
    let left ← extendTail vars buffer
    if left = [] then pure 0 else sendFresh vars left

/-! ## `flush` -/

/-- mirrors src/kcp.go:859-876 -/
def fillWindow (cwnd : UInt32) (w : World) : List Cell → World × Nat
  | [] => ({ w with sndQueue := [] }, 0)
  | newseg :: q =>
    if 0 ≤ itimediff w.ctl.sndNxt (w.ctl.sndUna + cwnd) then ({ w with sndQueue := newseg :: q }, 0)
    else
      let r := fillWindow cwnd
        { w with sndBuf := w.sndBuf ++ [(KCP.numbered w.ctl.conv w.ctl.sndNxt newseg.1, newseg.2)]
                 ctl := { w.ctl with sndNxt := w.ctl.sndNxt + 1 } } q
      (r.1, r.2 + 1)

/-- mirrors src/kcp.go:931-951 -/
def transmit (vars : Held) (k : KCP) (seg : Segment) (r : KCP.Reason) (s : Cell)
    (x : KCP.Xmit) : M (Segment × KCP.Xmit) := do
  let st := KCP.stamp k seg r x s.1
  let w ← GoM.call ((x.w.makeSpace k.mtu (IKCP_OVERHEAD + st.len)).encode k.bufLen st)
  useSeg vars s
  let w ← GoM.call (w.copyData k.bufLen st.bytes)
  pure (st, KCP.count k r st x w)

/-- mirrors src/kcp.go:896-956 -/
def resendOne (vars : Held) (k : KCP) (seg : Segment) (resent : UInt32) (newSegs : Nat) (s : Cell) (x : KCP.Xmit) :
    M (Segment × KCP.Xmit) :=
  if s.1.acked = 1 then pure (s.1, x)
  else match KCP.reason resent newSegs x.current s.1 with
    | none => pure (s.1, KCP.nearest x s.1)
    | some r => do
      let y ← transmit vars k seg r s x
      pure (y.1, KCP.nearest y.2 y.1)

/-- mirrors src/kcp.go:895-957 -/
def resendLoop (vars : Held) (k : KCP) (seg : Segment) (resent : UInt32) (newSegs : Nat) :
    List Cell → KCP.Xmit → M (List Cell × KCP.Xmit)
  | [], x => pure ([], x)
  | s :: q, x => do
    let y ← resendOne vars k seg resent newSegs s x
    let z ← resendLoop vars k seg resent newSegs q y.2
    pure ((y.1, s.2) :: z.1, z.2)

def resendBuf (vars : Held) (k : KCP) (ft : FlushType) (seg : Segment) (newSegs : Nat) (x : KCP.Xmit) :
    M (List Cell × KCP.Xmit) := do
  let w ← get
  match ft with
  | .full => resendLoop vars k seg k.resentOf newSegs w.sndBuf x
  | .ackOnly => pure (w.sndBuf, x)

/-- mirrors src/kcp.go:879-1010 -/
def flushData (vars : Held) (ft : FlushType) (clk : Clock) (seg : Segment) (newSegs : Nat) (wr : Writer) :
    M (List Bytes × UInt32) := do
  let w ← get
  let k := w.kcp
  let y ← resendBuf vars k ft seg newSegs ⟨clk 0, clk.tail, wr, k.state, 0, 0, k.interval⟩
  let x := y.2
  modify fun w => { w with
    sndBuf := y.1
    ctl := KCP.updateCwnd { k with sndBuf := y.1.map Prod.fst, state := x.state } k.sendWindow
      k.resentOf x.change x.lost }
  pure (x.w.finish, x.nextUpdate)

/-- mirrors src/kcp.go:780-1010 (`flush`) -/
def flush (vars : Held) (ft : FlushType) (clk : Clock) : M (List Bytes × UInt32) := do
  let w ← get
  let k := w.kcp
  let y ← GoM.call (KCP.flushAcks k k.acklist k.template ⟨[], []⟩)
  let t := KCP.probeTimer { k with acklist := [] } clk
  let z ← GoM.call (KCP.flushProbes t.1 y.1 y.2)
  let r := fillWindow t.1.sendWindow { w with ctl := { t.1 with probe := 0 } } w.sndQueue
  set r.1
  flushData vars ft t.2 z.1 r.2 z.2

/-! ## `Recv` -/

/-- `Pop` takes the segment into a variable.
mirrors src/kcp.go:345-361 -/
def mergeFragments (vars : Held) : Nat → List Cell → M Bytes
  | _, [] => pure []
  | room, seg :: q => do
    modify fun w => { w with rcvQueue := q }
    let vars' := held .segment [seg] ++ vars
    useSeg vars' seg
    if room < seg.1.len then throw .sliceBounds
    else do
      let _ ← recycleSegment vars' seg
      if seg.1.frg = 0 then pure seg.1.bytes
      else do
        let rest ← mergeFragments vars (room - seg.1.len) q
        pure (seg.1.bytes ++ rest)

def cellLess (a b : Cell) : Bool := SegHeap.less a.1 b.1

/-- mirrors src/kcp.go:364-374, 582-592 -/
def moveReady : Nat → World → World
  | 0, w => w
  | n + 1, w =>
    match BinHeap.pop cellLess w.rcvBuf with
    | none => w
    | some (seg, h) =>
      let marks := w.ctl.rcvBuf.marks.erase seg.1.sn
      if seg.1.sn = w.ctl.rcvNxt ∧ w.rcvQueue.length < w.ctl.rcvWnd.toNat then
        moveReady n { w with rcvBuf := h
                             rcvQueue := w.rcvQueue ++ [seg]
                             ctl := { w.ctl with rcvNxt := w.ctl.rcvNxt + 1, rcvBuf := ⟨[], marks⟩ } }
      else { w with rcvBuf := BinHeap.push cellLess h seg
                    ctl := { w.ctl with rcvBuf := ⟨[], insert seg.1.sn marks⟩ } }

def moveAll (w : World) : World := moveReady w.rcvBuf.length w

/-- mirrors src/kcp.go:329-383 (`Recv`) -/
def recv (vars : Held) (room : Nat) : M (Int × Bytes) := do
  let w ← get
  if w.kcp.peekSize < 0 then pure (-1, [])
  else if (room : Int) < w.kcp.peekSize then pure (-2, [])
  else do
    let written ← mergeFragments vars room w.rcvQueue
    modify moveAll
    modify fun w' =>
      if w'.rcvQueue.length < w'.ctl.rcvWnd.toNat ∧ w.ctl.rcvWnd.toNat ≤ w.rcvQueue.length then
        { w' with ctl := { w'.ctl with probe := w'.ctl.probe ||| IKCP_ASK_TELL } }
      else w'
    pure (written.length, written)

/-! ## `Input` -/

/-- The scan of `parse_una` on `todo`, behind `done`; the result is `count`.
mirrors src/kcp.go:541-550 -/
def unaLoop (vars : Held) (una : UInt32) (done : List Cell) : List Cell → M Nat
  | [] => pure done.length
  | seg :: q =>
    if 0 < itimediff una seg.1.sn then do
      let seg ← recycleSegment vars seg
      modify fun w => { w with sndBuf := done ++ seg :: q }
      unaLoop vars una (done ++ [seg]) q
    else pure done.length

/-- mirrors src/kcp.go:540-553 (`parse_una`) -/
def parseUna (vars : Held) (una : UInt32) : M Nat := do
  let w ← get
  let count ← unaLoop vars una [] w.sndBuf
  modify fun w => { w with sndBuf := w.sndBuf.drop count }
  pure count

/-- The scan of `parse_ack`.
mirrors src/kcp.go:495-509 -/
def ackLoop (vars : Held) (sn : UInt32) (done : List Cell) : List Cell → M Unit
  | [] => pure ()
  | seg :: q =>
    if sn = seg.1.sn then do
      let seg ← recycleSegment vars ({ seg.1 with acked := 1 }, seg.2)
      modify fun w => { w with sndBuf := done ++ seg :: q }
    else if itimediff sn seg.1.sn < 0 then pure ()
    else ackLoop vars sn (done ++ [seg]) q

/-- mirrors src/kcp.go:490-510 (`parse_ack`) -/
def parseAck (vars : Held) (sn : UInt32) : M Unit := do
  let w ← get
  if itimediff sn w.ctl.sndUna < 0 ∨ 0 ≤ itimediff sn w.ctl.sndNxt then pure () else ackLoop vars sn [] w.sndBuf

/-- The segments changed, their buffers kept. -/
def rezip (segs : List Segment) (q : List Cell) : List Cell := segs.zip (q.map Prod.snd)

/-- mirrors src/kcp.go:514-536 (`parse_fastack`) -/
def parseFastack (sn ts : UInt32) : M Bool := do
  let w ← get
  let r := w.kcp.parseFastack sn ts
  set { w with sndBuf := rezip r.1.sndBuf w.sndBuf }
  pure r.2

/-- A read of the packet given to `Input`, if it lies in a buffer of the pool. -/
def useSrc (vars : Held) (src : Option Nat) : M Unit :=
  match src with
  | none => pure ()
  | some b => useBuf vars b

/-- mirrors src/kcp.go:561-595 (`parse_data`) -/
def parseData (vars : Held) (src : Option Nat) (newseg : Segment) : M Bool := do
  let w ← get
  if 0 ≤ itimediff newseg.sn (w.ctl.rcvNxt + w.ctl.rcvWnd) ∨ itimediff newseg.sn w.ctl.rcvNxt < 0 then pure true
  else if w.ctl.rcvBuf.has newseg.sn then do
    modify moveAll
    pure true
  else do
    let b ← getSlice vars newseg.len
    useSrc ((.segment, b) :: vars) src
    useBuf ((.segment, b) :: vars) b
    modify fun w => { w with rcvBuf := BinHeap.push cellLess w.rcvBuf (newseg, b)
                             ctl := { w.ctl with rcvBuf := ⟨[], insert newseg.sn w.ctl.rcvBuf.marks⟩ } }
    modify moveAll
    pure false

/-- mirrors src/kcp.go:648-654 -/
def inputHead (vars : Held) (pkt : PacketType) (h : Header) : M Nat := do
  modify fun w => if pkt = .regular then { w with ctl := { w.ctl with rmtWnd := h.wnd.toUInt32 } } else w
  let n ← parseUna vars h.una
  modify fun w => { w with ctl := { w.ctl with sndUna := KCP.firstSn w.ctl.sndNxt (w.sndBuf.map Prod.fst) } }
  pure n

/-- mirrors src/kcp.go:667-676 -/
def inputPush (vars : Held) (src : Option Nat) (h : Header) (payload : Bytes) : M Unit := do
  let w ← get
  if itimediff h.sn (w.ctl.rcvNxt + w.ctl.rcvWnd) < 0 then do
    modify fun w => { w with ctl := w.ctl.ackPush h.sn h.ts }
    if 0 ≤ itimediff h.sn w.ctl.rcvNxt then do
      let _ ← parseData vars src (KCP.pushed h payload)
      pure ()
    else pure ()
  else pure ()

/-- `latest`, `updateRTT` and `flushSegments`. -/
structure LoopVars where
  latest : UInt32
  updateRTT : Bool
  flushSegments : Bool

/-- mirrors src/kcp.go:647-696 -/
def inputSeg (vars : Held) (src : Option Nat) (pkt : PacketType) (h : Header) (payload : Bytes)
    (st : LoopVars) : M LoopVars := do
  let n ← inputHead vars pkt h
  let fl := st.flushSegments || decide (0 < n)
  if h.cmd = IKCP_CMD_ACK then do
    parseAck vars h.sn
    let r ← parseFastack h.sn h.ts
    pure ⟨h.ts, true, fl || r⟩
  else if h.cmd = IKCP_CMD_PUSH then do
    inputPush vars src h payload
    pure { st with flushSegments := fl }
  else if h.cmd = IKCP_CMD_WASK then do
    modify fun w => { w with ctl := { w.ctl with probe := w.ctl.probe ||| IKCP_ASK_TELL } }
    pure { st with flushSegments := fl }
  else pure { st with flushSegments := fl }

/-- mirrors src/kcp.go:614-700 -/
def inputLoop (vars : Held) (src : Option Nat) (pkt : PacketType) : Nat → Bytes → LoopVars → M (LoopVars × Option Int)
  | 0, _, st => pure (st, none)
  | n + 1, data, st =>
    if data.length < IKCP_OVERHEAD then pure (st, none)
    else do
      useSrc vars src
      let w ← get
      let h := readHeader data
      let data := data.drop IKCP_OVERHEAD
      if h.conv ≠ w.ctl.conv then pure (st, some (-1))
      else if data.length < h.length.toNat then pure (st, some (-2))
      else if KCP.isCmd h.cmd = false then pure (st, some (-3))
      else do
        let st ← inputSeg vars src pkt h (data.take h.length.toNat) st
        inputLoop vars src pkt n (data.drop h.length.toNat) st

/-- mirrors src/kcp.go:603-760 (`Input`) -/
def input (vars : Held) (src : Option Nat) (data : Bytes) (pkt : PacketType) (ackNoDelay : Bool) (clk : Clock) :
    M (Int × List Bytes) := do
  let w ← get
  let una := w.ctl.sndUna
  if data.length < IKCP_OVERHEAD then pure (-1, [])
  else do
    let y ← inputLoop vars src pkt data.length data ⟨0, false, false⟩
    match y.2 with
    | some r => pure (r, [])
    | none => do
      let w ← get
      let t := KCP.sampleRtt pkt ⟨w.kcp, y.1.latest, y.1.updateRTT, y.1.flushSegments⟩ clk
      let k ← GoM.call (t.1.growCwnd una)
      set { w with ctl := k }
      match k.flushWanted y.1.flushSegments ackNoDelay with
      | none => pure (0, [])
      | some ft => do
        let r ← flush vars ft t.2
        pure (0, r.1)

/-! ## The calls -/

/-- A change of fields that are no queues. -/
def onFields (f : KCP → KCP) : M Unit := modify fun w => { w with ctl := f w.kcp }

/-- mirrors src/kcp.go:1028-1051 (`Update`) -/
def update (clk : Clock) : M (List Bytes) := do
  let w ← get
  onFields fun k => (k.updateTimer (clk 0)).1
  if (w.kcp.updateTimer (clk 0)).2 then do
    let r ← flush [] .full clk.tail
    pure r.1
  else pure []

def step : Op → M Out
  | .send buffer => do
    let ret ← send [] buffer
    pure ⟨ret, [], []⟩
  | .recv room => do
    let r ← recv [] room
    pure ⟨r.1, r.2, []⟩
  | .peekSize => do
    let w ← get
    pure ⟨w.kcp.peekSize, [], []⟩
  | .flush ft clk => do
    let r ← flush [] ft clk
    pure ⟨r.2.toNat, [], r.1⟩
  | .input data pkt ackNoDelay clk => do
    let r ← input [] none data pkt ackNoDelay clk
    pure ⟨r.1, [], r.2⟩
  | .noDelay a b c d => do
    onFields fun k => k.noDelay a b c d
    pure ⟨0, [], []⟩
  | .wndSize a b => do
    onFields fun k => k.wndSize a b
    pure ⟨0, [], []⟩
  | .setMtu mtu => do
    let w ← get
    let r ← GoM.call (w.kcp.setMtu mtu)
    onFields fun _ => r.1
    pure ⟨r.2, [], []⟩
  | .setStream on => do
    onFields fun k => { k with stream := if on then 1 else 0 }
    pure ⟨0, [], []⟩
  | .resetRTO clk => do
    modify fun w => { w with sndBuf := rezip (w.kcp.resetRTO clk).sndBuf w.sndBuf }
    pure ⟨0, [], []⟩
  | .waitSnd => do
    let w ← get
    pure ⟨w.kcp.waitSnd, [], []⟩
  | .update clk => do
    let pkts ← update clk
    pure ⟨0, [], pkts⟩
  | .check now => do
    let w ← get
    pure ⟨(w.kcp.check now).toNat, [], []⟩

end KcpGo.L2.Buffers
