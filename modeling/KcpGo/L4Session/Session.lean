import KcpGo.L1Encoding.Crypt
import KcpGo.L2Machine.FecDecoder
import KcpGo.L2Machine.Input
import KcpGo.L2Machine.Queues

/-!
# A session (`sess.go`)

The control block, the FEC codec and the cipher of one `UDPSession`, with the
two pipelines between them:

    Write -> KCP -> output -> postQueue -> FEC -> encryption -> datagrams
    datagrams -> decryption -> FEC / OOB / KCP -> Read

One `step` is one call under `s.mu`, or one request taken by `postProcess`.
Buffers of the pool are their bytes and have the capacity `maxPacketSize`;
the bytes that `output` and `SendOOB` reserve for the headers are zeros, since
`postProcess` writes every one of them before anything reads them.
`fillRand`, the clocks and the errors of the socket are arguments of a step.

`kcpInput` also returns what it handed to which component, in order
(`Reached`). The counters of snmp.go, the wakeups of readers and writers, the
deadlines, the rate limit and the batching of datagrams are left out.
-/
namespace KcpGo.L4

open KcpGo.L1 KcpGo.L2

/-! Constants (src/sess.go:71-93). -/
def nonceSize : Nat := 16
def crcSize : Nat := 4
def cryptHeaderSize : Nat := nonceSize + crcSize
def convSize : Nat := 4
def maxFECEncodeLatency : UInt32 := 500

/-- The cases of the type switches on `s.block`. -/
inductive Block where
  | nil
  | aead (a : Aead)
  | crypt (c : BlockCrypt)

/-- mirrors src/sess.go:226-234 -/
def Block.headerSize : Block → Nat
  | .nil => 0
  | .aead a => a.nonceSize
  | .crypt _ => cryptHeaderSize

/-- What `SetMtu` takes off for the tag.
mirrors src/sess.go:607-609 -/
def Block.overhead : Block → Nat
  | .aead a => a.overhead
  | _ => 0

/-- mirrors src/sess.go:113-116 (`sendRequest`) -/
structure SendRequest where
  buffer : Bytes
  oob : Bool

/-- `recvCap` is `cap(s.recvbuf)`, `input` the unread part of it, and
`callbackForOOB` whether one is registered.
mirrors src/sess.go:123-185 (`UDPSession`) -/
structure Session where
  block : Block
  kcp : KCP
  fecDecoder : Option FecDecoder
  fecEncoder : Option FecEncoder
  headerSize : Nat
  input : Bytes
  recvCap : Nat
  ackNoDelay : Bool
  writeDelay : Bool
  dup : Int
  callbackForOOB : Bool
  die : Bool
  postQueue : List SendRequest

/-- What was handed to a component of a session. -/
inductive Reached where
  | kcp (data : Bytes) (pkt : PacketType)
  | decoder (f : Bytes)
  | oob (payload : Bytes)
  deriving DecidableEq

namespace Session

/-! ## Construction -/

/-- `int` has 64 bits; the differences wrap.
mirrors src/sess.go:603-615 (`SetMtu`) -/
def setMtu (s : Session) (mtu : Int64) : Go (Session × Bool) := do
  let mtu := min 1472 mtu
  let mtu := mtu - Int64.ofNat s.headerSize
  let mtu := mtu - Int64.ofNat s.block.overhead
  let (kcp, ret) ← s.kcp.setMtu mtu.toInt
  .ok ({ s with kcp := kcp }, ret = 0)

/-- A count that is not positive is 0 here.
mirrors src/sess.go:201-292 (`newUDPSession`) -/
def new (lib : Lib) (conv : UInt32) (dataShards parityShards : Nat) (block : Block) : Go Session := do
  let enc := newFECEncoder lib.newCodec dataShards parityShards block.headerSize
  let s : Session :=
    { block := block
      kcp := newKCP conv
      fecDecoder := newFECDecoder lib dataShards parityShards
      fecEncoder := enc
      headerSize := block.headerSize + if enc.isSome then fecHeaderSizePlus2 else 0
      input := []
      recvCap := maxPacketSize
      ackNoDelay := false
      writeDelay := false
      dup := 0
      callbackForOOB := false
      die := false
      postQueue := [] }
  let (s, ok) ← s.setMtu 1400
  if ok then .ok s else .error (.explicit "Overhead too large")

/-! ## Output -/

/-- mirrors src/sendqueue.go:39-52 (`push`, as `SendQueue.push_items` has it) -/
def push (s : Session) (r : SendRequest) : Session :=
  if s.postQueue.length < devBacklog then { s with postQueue := s.postQueue ++ [r] } else s

/-- The output callback.
mirrors src/sess.go:245-267 -/
def output (s : Session) (buf : Bytes) : Go Session :=
  if buf.length < IKCP_OVERHEAD then .ok s
  else if maxPacketSize < buf.length + s.headerSize then .error .sliceBounds
  else if s.die then .ok s
  else .ok (s.push ⟨List.replicate s.headerSize 0 ++ buf, false⟩)

def flush (s : Session) (ft : FlushType) (clk : Clock) : Go Session := do
  let (kcp, out, _) ← s.kcp.flush ft clk
  out.foldlM output { s with kcp := kcp }

/-- mirrors src/sess.go:959-1000 (`SendOOB`) -/
def sendOOB (s : Session) (data : Bytes) : Go Session :=
  if s.fecEncoder.isNone then .ok s
  else if s.kcp.mtu.toNat < convSize + data.length then .ok s
  else if maxPacketSize < convSize + data.length + s.headerSize then .error .sliceBounds
  else if s.die then .ok s
  else .ok (s.push ⟨List.replicate s.headerSize 0 ++ LE.put 4 s.kcp.conv.toNat ++ data, true⟩)

/-! ## Post-processing -/

/-- `n` bytes of `fillRand`. -/
def fillRand (n : Nat) (src : Bytes) : Bytes := (src ++ List.replicate n 0).take n

/-- Encryption of a buffer in place; `rnd` are the random bytes.
mirrors src/sess.go:785-817 (and src/crypt.go:83-89, `Seal`) -/
def frame (block : Block) (rnd buf : Bytes) : Go Bytes :=
  match block with
  | .nil => .ok buf
  | .aead a =>
    if buf.length < a.nonceSize then .error .sliceBounds
    else
      let nonce := fillRand a.nonceSize rnd
      let plaintext := buf.drop a.nonceSize
      if maxPacketSize < a.nonceSize + plaintext.length + a.overhead then
        .error (.explicit "AEAD Seal allocated new slice, please increase MTU size")
      else .ok (nonce ++ a.sealing nonce plaintext)
  | .crypt c =>
    if buf.length < cryptHeaderSize then .error .sliceBounds
    else
      let body := buf.drop cryptHeaderSize
      c.encrypt (fillRand nonceSize rnd ++ LE.put 4 (crc32 body).toNat ++ body)

/-- Encryption of the parity; the random bytes of the `k`-th are `rnd k`. -/
def frameAll (block : Block) : (Nat → Bytes) → List Bytes → Go (List Bytes)
  | _, [] => .ok []
  | rnd, b :: ecc => do
    let b ← frame block (rnd 0) b
    let ecc ← frameAll block (fun k => rnd (k + 1)) ecc
    .ok (b :: ecc)

/-- The encoder, the packet with its header and the parity packets.
mirrors src/sess.go:773-779 -/
def encodeFec (enc : Option FecEncoder) (req : SendRequest) (now : Int) : Go (Option FecEncoder × Bytes × List Bytes) :=
  match enc with
  | none => .ok (none, req.buffer, [])
  | some enc =>
    if req.oob then do
      let buf ← enc.encodeOOB req.buffer
      .ok (some enc, buf, [])
    else do
      let (enc, buf, ecc) ← enc.encode req.buffer now maxFECEncodeLatency
      .ok (some enc, buf, ecc)

/-- Bytes written over a slice, which then ends with them. -/
def store (s : Slice) (b : Bytes) : Go Slice := do
  let s ← s.reslice b.length
  s.writeAt 0 b

/-- The parity packets are slices of the encoder's cache: encryption writes
there, and an AEAD leaves the longer slices in it.
mirrors src/sess.go:797-804,811-816 -/
def storeParity (enc : FecEncoder) (ecc : List Bytes) : Go FecEncoder :=
  if ecc = [] then .ok enc
  else do
    let ps ← ((enc.shardCache.drop enc.dataShards).zip ecc).mapM fun x => store x.1 x.2
    .ok { enc with shardCache := enc.shardCache.take enc.dataShards ++ ps }

def storeFec (enc : Option FecEncoder) (ecc : List Bytes) : Go (Option FecEncoder) :=
  match enc with
  | none => .ok none
  | some enc => do
    let enc ← storeParity enc ecc
    .ok (some enc)

/-- A copy in a buffer of the pool. -/
def poolCopy (b : Bytes) : Go Bytes := if maxPacketSize < b.length then .error .sliceBounds else .ok b

/-- One round of the loop: the datagrams of the next request.
mirrors src/sess.go:760-844 (`postProcess`) -/
def postProcess (s : Session) (rnd : Nat → Bytes) (now : Int) : Go (Session × List Bytes) :=
  match s.postQueue with
  | [] => .ok (s, [])
  | req :: q => do
    let (enc, buf, ecc) ← encodeFec s.fecEncoder req now
    let buf ← frame s.block (rnd 0) buf
    let ecc ← frameAll s.block (fun k => rnd (k + 1)) ecc
    let enc ← storeFec enc ecc
    let dups ← (List.replicate s.dup.toNat buf).mapM poolCopy
    let parity ← ecc.mapM poolCopy
    .ok ({ s with postQueue := q, fecEncoder := enc }, buf :: dups ++ parity)

/-! ## Input -/

/-- Decryption and verification; `none` is a packet that is dropped.
mirrors src/sess.go:1041-1076 (`packetInput`), 1242-1277 -/
def unframe (block : Block) (data : Bytes) : Go (Option Bytes) :=
  match block with
  | .nil => .ok (some data)
  | .aead a =>
    if data.length < a.nonceSize + a.overhead then .ok none
    else .ok (a.opening (data.take a.nonceSize) (data.drop a.nonceSize))
  | .crypt c =>
    if data.length < cryptHeaderSize then .ok none
    else do
      let data ← c.decrypt data
      let data := data.drop nonceSize
      if data.length < crcSize then .error .sliceBounds
      else if crc32 (data.drop crcSize) ≠ LE.u32 data 0 then .ok none
      else .ok (some (data.drop crcSize))

/-- The least size of a decrypted packet.
mirrors src/sess.go:1080, 1281 -/
def minPacketSize : Nat := min IKCP_OVERHEAD (fecHeaderSizePlus2 + convSize)

/-- `kcp.Input` with the packets it sends. -/
def kcpIn (s : Session) (data : Bytes) (pkt : PacketType) (clk : Clock) : Go Session := do
  let (kcp, _, out) ← s.kcp.input data pkt s.ackNoDelay clk
  out.foldlM output { s with kcp := kcp }

/-- mirrors src/sess.go:1138-1149 -/
def inputRecovered : Session → (Nat → Clock) → List Bytes → Go (Session × List Reached)
  | s, _, [] => .ok (s, [])
  | s, clks, r :: recovers =>
    match cut r with
    | none => inputRecovered s clks recovers
    | some b => do
      let s ← s.kcpIn (b.drop 2) .fec (clks 0)
      let (s, got) ← inputRecovered s (fun i => clks (i + 1)) recovers
      .ok (s, .kcp (b.drop 2) .fec :: got)

/-- mirrors src/sess.go:1129-1133 -/
def inputData (s : Session) (f : Bytes) (clk : Clock) : Go (Session × List Reached) :=
  if flag f = typeData then do
    let s ← s.kcpIn (f.drop fecHeaderSizePlus2) .regular clk
    .ok (s, [.kcp (f.drop fecHeaderSizePlus2) .regular])
  else .ok (s, [])

/-- A packet with a FEC header; a session without a decoder gets one.
mirrors src/sess.go:1107-1165 -/
def fecInput (lib : Lib) (s : Session) (f : Bytes) (clks : Nat → Clock) : Go (Session × List Reached) :=
  if f.length < fecHeaderSizePlus2 then .ok (s, [])
  else
    match s.fecDecoder.or (newFECDecoder lib 1 1) with
    | none => .error .nilDeref
    | some dec => do
      let (s, got) ← { s with fecDecoder := some dec }.inputData f (clks 0)
      let (dec, recovers) ← dec.decode lib f
      let (s, got') ← inputRecovered { s with fecDecoder := some dec } (fun i => clks (i + 1)) recovers
      .ok (s, got ++ .decoder f :: got')

/-- mirrors src/sess.go:1098-1193 (`kcpInput`) -/
def kcpInput (lib : Lib) (s : Session) (data : Bytes) (clks : Nat → Clock) : Go (Session × List Reached) :=
  if data.length < 6 then .error .sliceBounds
  else if flag data = typeData ∨ flag data = typeParity then s.fecInput lib data clks
  else if flag data = typeOOB then
    if s.callbackForOOB then
      if data.length < fecHeaderSizePlus2 + convSize then .error .sliceBounds
      else .ok (s, [.oob (data.drop (fecHeaderSizePlus2 + convSize))])
    else .ok (s, [])
  else do
    let s ← s.kcpIn data .regular (clks 0)
    .ok (s, [.kcp data .regular])

/-- mirrors src/sess.go:1041-1086 (`packetInput`) -/
def packetInput (lib : Lib) (s : Session) (data : Bytes) (clks : Nat → Clock) : Go (Session × List Reached) := do
  match ← unframe s.block data with
  | none => .ok (s, [])
  | some data => if data.length < minPacketSize then .ok (s, []) else s.kcpInput lib data clks

/-! ## Reading and writing -/

/-- One slice cut into pieces of `mss` bytes; `len(b) + 1` rounds are enough.
mirrors src/sess.go:379-388 -/
def sendPieces : Nat → KCP → Bytes → Go KCP
  | 0, k, _ => .ok k
  | n + 1, k, b =>
    if b.length ≤ k.mss.toNat then do
      let (k, _) ← k.send b
      .ok k
    else do
      let (k, _) ← k.send (b.take k.mss.toNat)
      sendPieces n k (b.drop k.mss.toNat)

/-- `none`: the caller has to wait.
mirrors src/sess.go:368-399 (`writeBuffersLocked`) -/
def writeBuffersLocked (s : Session) (v : List Bytes) (clk : Clock) : Go (Session × Option Nat) :=
  if s.kcp.sndWnd.toNat ≤ s.kcp.waitSnd then .ok (s, none)
  else do
    let kcp ← v.foldlM (fun k b => sendPieces (b.length + 1) k b) s.kcp
    let s := { s with kcp := kcp }
    let n := v.flatten.length
    if kcp.sndWnd.toNat ≤ kcp.waitSnd ∨ s.writeDelay = false then do
      let s ← s.flush .full clk
      .ok (s, some n)
    else .ok (s, some n)

/-- mirrors src/sess.go:416-462 (`WriteBuffers`; `Write` is the case of one slice) -/
def writeBuffers (s : Session) (v : List Bytes) (clk : Clock) : Go (Session × Option Nat) :=
  if v.all List.isEmpty ∨ s.die then .ok (s, none) else s.writeBuffersLocked v clk

/-- The bytes a reader with room for `n` gets; `none`: it has to wait.
mirrors src/sess.go:296-333 (`readLocked`) -/
def readLocked (s : Session) (n : Nat) : Go (Session × Option Bytes) :=
  if s.input ≠ [] then .ok ({ s with input := s.input.drop n }, some (s.input.take n))
  else if s.kcp.peekSize ≤ 0 then .ok (s, none)
  else if s.kcp.peekSize ≤ n then do
    let (kcp, _, data) ← s.kcp.recv n
    .ok ({ s with kcp := kcp }, some data)
  else do
    let size := s.kcp.peekSize.toNat
    let (kcp, _, data) ← s.kcp.recv size
    .ok ({ s with kcp := kcp, recvCap := max s.recvCap size, input := data.drop n }, some (data.take n))

/-- mirrors src/sess.go:861-879 (`update`) -/
def update (s : Session) (clk : Clock) : Go Session := if s.die then .ok s else s.flush .full clk

/-- What `Close` does to the session itself.
mirrors src/sess.go:523-541 (`Close`) -/
def close (s : Session) (clk : Clock) : Go Session :=
  if s.die then .ok s
  else do
    let s ← s.flush .full clk
    .ok { s with die := true, postQueue := [] }

/-! ## Calls -/

/-- One call, or one request taken by `postProcess`. -/
inductive Call where
  | packetInput (data : Bytes) (clks : Nat → Clock)
  | write (v : List Bytes) (clk : Clock)
  | read (n : Nat)
  | update (clk : Clock)
  | sendOOB (data : Bytes)
  | postProcess (rnd : Nat → Bytes) (now : Int)
  | close (clk : Clock)
  | setMtu (mtu : Int64)
  | setStreamMode (enable : Bool)
  | setWriteDelay (delay : Bool)
  | setACKNoDelay (nodelay : Bool)
  | setDUP (dup : Int)
  | setOOBHandler
  | setWindowSize (sndwnd rcvwnd : Int)
  | setNoDelay (nodelay interval resend nc : Int)
  | resetRTO (clk : Clock)

/-- What a call shows outside: datagrams, and what was handed on. -/
structure Shown where
  datagrams : List Bytes := []
  reached : List Reached := []

/-- The setters are those of src/sess.go:590-687,913-922,1203-1207. -/
def step (lib : Lib) (s : Session) : Call → Go (Session × Shown)
  | .packetInput data clks => do
    let (s, got) ← s.packetInput lib data clks
    .ok (s, { reached := got })
  | .write v clk => do
    let (s, _) ← s.writeBuffers v clk
    .ok (s, {})
  | .read n => do
    let (s, _) ← s.readLocked n
    .ok (s, {})
  | .update clk => do
    let s ← s.update clk
    .ok (s, {})
  | .sendOOB data => do
    let s ← s.sendOOB data
    .ok (s, {})
  | .postProcess rnd now => do
    let (s, out) ← s.postProcess rnd now
    .ok (s, { datagrams := out })
  | .close clk => do
    let s ← s.close clk
    .ok (s, {})
  | .setMtu mtu => do
    let (s, _) ← s.setMtu mtu
    .ok (s, {})
  | .setStreamMode enable => .ok ({ s with kcp := { s.kcp with stream := if enable then 1 else 0 } }, {})
  | .setWriteDelay delay => .ok ({ s with writeDelay := delay }, {})
  | .setACKNoDelay nodelay => .ok ({ s with ackNoDelay := nodelay }, {})
  | .setDUP dup => .ok ({ s with dup := dup }, {})
  | .setOOBHandler => .ok ({ s with callbackForOOB := s.callbackForOOB || s.fecEncoder.isSome }, {})
  | .setWindowSize sndwnd rcvwnd => .ok ({ s with kcp := s.kcp.wndSize sndwnd rcvwnd }, {})
  | .setNoDelay a b c d => .ok ({ s with kcp := s.kcp.noDelay a b c d }, {})
  | .resetRTO clk => .ok ({ s with kcp := s.kcp.resetRTO clk }, {})

end Session
end KcpGo.L4
