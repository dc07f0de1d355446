import KcpGo.L2Machine.BuffersSpec
import KcpGo.L2Machine.FecDecoderSpec

/-!
# The pool buffers of the decoder (`fec.go`)

`fecDecoder.decode` with the buffers told apart, as `Buffers` has the control
block. A packet lies in a buffer from its arrival until its set is complete,
too old, or dropped by auto-tuning; a lost data shard gets one that is handed
on to `kcpInput`. What the call in progress has in variables stands in
`World.fec.decode`: both deferred calls find it there, at a panic too.

From the start of the loop that releases a set on, its packets count as
variables of the call: nothing reads the set between that and its deletion.
-/
namespace KcpGo.L2.Buffers

open KcpGo.L1 KcpGo.Ledger GoM

namespace ShardCells

/-- mirrors src/fec.go:74-80 (`newShardHeap`) -/
def empty : ShardCells := ⟨[], ∅⟩

/-- mirrors src/fec.go:89-92 -/
def push (h : ShardCells) (pkt : Packet) : ShardCells := ⟨h.elements ++ [pkt], insert (seqid pkt.1) h.marks⟩

/-- mirrors src/fec.go:103-106 -/
def has (h : ShardCells) (sn : UInt32) : Bool := decide (sn ∈ h.marks)

def bufs (h : ShardCells) : List Nat := h.elements.map Prod.snd

def plain (h : ShardCells) : ShardHeap := ⟨h.elements.map Prod.fst, h.marks⟩

end ShardCells

/-- The decoder without the buffers. -/
def DecoderCells.plain (d : DecoderCells) : FecDecoder := { d.dec with shardSet := d.shardSet.map ShardCells.plain }

/-- The buffers of some sets. -/
def packetsOf (sets : Table UInt32 ShardCells) : List Nat := sets.entries.flatMap fun e => e.2.bufs

def getDec : M DecoderCells := do
  let w ← get
  match w.fec.decoder with
  | none => throw .nilDeref
  | some d => pure d

/-- The decoder changes, and the call takes the buffers into variables. -/
def setDec (d : DecoderCells) (taken : List Nat) : M Unit :=
  modify fun w => { w with fec := ⟨some d, w.fec.decode ++ taken⟩ }

/-- `Put` of buffers in variables of the call, one after the other. -/
def putDecode (vars : Held) : List Nat → M Unit
  | [] => pure ()
  | b :: bs => do
    putBuf vars b
    modify fun w => { w with fec := { w.fec with decode := w.fec.decode.erase b } }
    putDecode vars bs

/-- mirrors src/fec.go:343-356 -/
def discardShards (vars : Held) : M Unit := do
  let d ← getDec
  let old := packetsOf (d.shardSet.keep fun id => d.dec.stale id)
  setDec { d with shardSet := d.shardSet.keep fun id => !d.dec.stale id } old
  putDecode vars old

/-- mirrors src/fec.go:193-216 -/
def retune (vars : Held) (lib : Lib) (ds ps : Nat) (id : UInt32) : M Unit := do
  let d ← getDec
  setDec { d with shardSet := ∅ } (packetsOf d.shardSet)
  putDecode vars (packetsOf d.shardSet)
  setDec ⟨d.dec.retune lib ds ps id, ∅⟩ []

/-- mirrors src/fec.go:187-222 -/
def tune (vars : Held) (lib : Lib) (id : UInt32) : M Unit := do
  let d ← getDec
  let autoDS := d.dec.autoTune.findPeriod lib.sort true
  let autoPS := d.dec.autoTune.findPeriod lib.sort false
  if 0 < autoDS ∧ 0 < autoPS ∧ autoDS + autoPS ≤ 256 then
    if autoDS ≠ d.dec.dataShards ∨ autoPS ≠ d.dec.parityShards then retune vars lib autoDS.toNat autoPS.toNat id
    else setDec { d with dec := { d.dec with shouldTune := false } } []
  else pure ()

/-! ## Recovery -/

/-- The decode cache with the buffers of its packets. -/
structure PoppedCells where
  shards : List (Option Packet)
  numDataShard : Nat
  maxlen : Nat

namespace PoppedCells

def plain (x : PoppedCells) : FecDecoder.Popped := ⟨x.shards.map (Option.map Prod.fst), x.numDataShard, x.maxlen⟩

def bufs (x : PoppedCells) : List Nat := x.shards.filterMap (Option.map Prod.snd)

end PoppedCells

/-- mirrors src/fec.go:274-286 -/
def popShard (dec : FecDecoder) (x : PoppedCells) (pkt : Packet) : Go PoppedCells :=
  let pos := (seqid pkt.1 % UInt32.ofNat dec.shardSize).toNat
  if dec.decodeCache ≤ pos ∨ dec.flagCache ≤ pos then .error .sliceBounds
  else .ok
    { shards := x.shards.set pos (some (fecData pkt.1, pkt.2))
      numDataShard := x.numDataShard + if flag pkt.1 = typeData then 1 else 0
      maxlen := max x.maxlen (fecData pkt.1).length }

/-- The elements of the set, last first.
mirrors src/fec.go:272-286 (and 94-101, `Pop`) -/
def popLoop (vars : Held) (shardId : UInt32) : List Packet → PoppedCells → M PoppedCells
  | [], x => pure x
  | pkt :: rest, x => do
    let d ← getDec
    let shard := (d.shardSet.lookup shardId).getD .empty
    setDec { d with shardSet := d.shardSet.insert shardId ⟨rest.reverse, shard.marks.erase (seqid pkt.1)⟩ } [pkt.2]
    useBuf vars pkt.2
    let x ← GoM.call (popShard d.dec x pkt)
    popLoop vars shardId rest x

/-- The shards as `ReconstructData` gets them, and `newBuffers`.
mirrors src/fec.go:296-312 -/
def fillLoop (vars : Held) (maxlen dataShards : Nat) : Nat → List (Option Packet) → M (List Bytes × List Nat)
  | _, [] => pure ([], [])
  | k, some s :: cache => do
    let filled ← GoM.call (FecDecoder.fillUp maxlen (some s.1))
    useBuf vars s.2
    let r ← fillLoop vars maxlen dataShards (k + 1) cache
    pure (filled :: r.1, r.2)
  | k, none :: cache =>
    if k < dataShards then do
      let b ← getBuf vars
      modify fun w => { w with fec := { w.fec with decode := w.fec.decode ++ [b] } }
      let r ← fillLoop vars maxlen dataShards (k + 1) cache
      pure ([] :: r.1, b :: r.2)
    else do
      let r ← fillLoop vars maxlen dataShards (k + 1) cache
      pure ([] :: r.1, r.2)

def useEach (vars : Held) : List Nat → M Unit
  | [] => pure ()
  | b :: bs => do
    useBuf vars b
    useEach vars bs

/-- `ReconstructData` reads and writes every shard; what it fills in stays in
the buffer it was given.
mirrors src/fec.go:289-334 -/
def reconstruct (vars : Held) (x : PoppedCells) : M (List Packet) := do
  let d ← getDec
  if x.numDataShard = d.dec.dataShards then pure []
  else do
    let r ← fillLoop vars x.maxlen d.dec.dataShards 0 x.shards
    useEach vars (x.bufs ++ r.2)
    match ← GoM.call (d.dec.codec.reconstructData r.1) with
    | none => do
      putDecode vars r.2
      pure []
    | some shards =>
      if d.dec.decodeCache < d.dec.dataShards then throw .sliceBounds
      else pure ((FecDecoder.missing d.dec.dataShards x.plain.shards shards).zip r.2)

/-- mirrors src/fec.go:262-334 -/
def recover (vars : Held) (shardId : UInt32) (shard : ShardCells) : M (List Packet) := do
  let d ← getDec
  if d.dec.flagCache < d.dec.decodeCache then throw .sliceBounds
  else do
    let pkts := shard.elements.reverse
    let x ← popLoop vars shardId pkts ⟨List.replicate d.dec.decodeCache none, 0, 0⟩
    GoM.deferred (reconstruct vars x) (putDecode vars (pkts.map Prod.snd))

/-- mirrors src/fec.go:224-334 -/
def receive (vars : Held) (bts : Bytes) : M (List Packet) := do
  let d ← getDec
  let shardId := d.dec.getShardId (seqid bts)
  let shard := (d.shardSet.lookup shardId).getD .empty
  if shard.has (seqid bts) then pure []
  else do
    let b ← getSlice vars bts.length
    useBuf ((.decode, b) :: vars) b
    let shard := shard.push (bts, b)
    setDec ⟨d.dec.updateNewest shardId, d.shardSet.insert shardId shard⟩ []
    GoM.deferred (if shard.elements.length < d.dec.dataShards then pure [] else recover vars shardId shard)
      (discardShards vars)

/-- mirrors src/fec.go:162-335 -/
def decodeBody (vars : Held) (lib : Lib) (bts : Bytes) : M (List Packet) := do
  let d ← getDec
  if bts.length < fecHeaderSize then throw .sliceBounds
  else do
    let dec := d.dec.sampled bts
    setDec { d with dec := dec } []
    if dec.paws ≤ seqid bts then pure []
    else if UInt32.ofNat dec.shardSize = 0 then throw .divideByZero
    else do
      let dec := dec.checked bts
      setDec { d with dec := dec } []
      if dec.shouldTune then do
        tune vars lib (seqid bts)
        pure []
      else receive vars bts

/-- What is recovered is handed to the caller.
mirrors src/fec.go:161-335 (`decode`) -/
def decode (vars : Held) (lib : Lib) (bts : Bytes) : M (List Packet) := do
  let recovered ← decodeBody vars lib bts
  modify fun w => { w with fec := { w.fec with decode := [] } }
  pure recovered

end KcpGo.L2.Buffers
