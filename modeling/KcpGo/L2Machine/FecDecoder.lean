import KcpGo.Core.Table
import KcpGo.L2Machine.AutoTune
import KcpGo.L2Machine.FecEncoder

/-!
# The FEC decoder (`fec.go`)

Packets are collected in shard sets, one for each group of `shardSize`
sequence ids; the packet that completes `dataShards` of a set empties it and
recovers the missing data shards. Sets too far behind the newest one are
discarded after each insertion. A packet whose type does not fit its position
starts auto-tuning, which replaces the shard counts.

The caches are their lengths: every use fills them anew. A set is a stack
(`decode` calls the heap's `Push` and `Pop` directly).
-/
namespace KcpGo.L2

open KcpGo.L1

/-- Code from outside the repository. -/
structure Lib where
  /-- `sort.Slice` of `FindPeriod` -/
  sort : List Pulse → List Pulse
  /-- `reedsolomon.New`; `none` is its error -/
  newCodec : Nat → Nat → Option Codec

/-- mirrors src/fec.go:69-72 -/
structure ShardHeap where
  elements : List Bytes
  marks : Finset UInt32
  deriving DecidableEq

namespace ShardHeap

/-- mirrors src/fec.go:74-80 (`newShardHeap`) -/
def empty : ShardHeap := ⟨[], ∅⟩

/-- mirrors src/fec.go:89-92 -/
def push (h : ShardHeap) (pkt : Bytes) : ShardHeap := ⟨h.elements ++ [pkt], insert (seqid pkt) h.marks⟩

/-- The heap after `Pop` until it is empty.
mirrors src/fec.go:94-101 -/
def drain (h : ShardHeap) : ShardHeap := ⟨[], h.elements.foldr (fun pkt m => m.erase (seqid pkt)) h.marks⟩

/-- mirrors src/fec.go:103-106 -/
def has (h : ShardHeap) (sn : UInt32) : Bool := decide (sn ∈ h.marks)

end ShardHeap

/-- mirrors src/fec.go:111-133 -/
structure FecDecoder where
  dataShards : Nat
  parityShards : Nat
  shardSize : Nat
  shardSet : Table UInt32 ShardHeap
  paws : UInt32
  newestShardId : UInt32
  decodeCache : Nat
  flagCache : Nat
  codec : Codec
  autoTune : AutoTune
  shouldTune : Bool

/-- mirrors src/fec.go:135-158 (`newFECDecoder`) -/
def newFECDecoder (lib : Lib) (dataShards parityShards : Nat) : Option FecDecoder :=
  if dataShards = 0 ∨ parityShards = 0 then none
  else if 256 < dataShards + parityShards then none
  else (lib.newCodec dataShards parityShards).map fun codec =>
    { dataShards := dataShards
      parityShards := parityShards
      shardSize := dataShards + parityShards
      shardSet := ∅
      paws := pawsOf (dataShards + parityShards)
      newestShardId := 0
      decodeCache := dataShards + parityShards
      flagCache := dataShards + parityShards
      codec := codec
      autoTune := .empty
      shouldTune := false }

namespace FecDecoder

/-- mirrors src/fec.go:162-167 -/
def sampled (dec : FecDecoder) (bts : Bytes) : FecDecoder :=
  { dec with autoTune := dec.autoTune.sample (decide (flag bts = typeData)) (seqid bts) }

/-- The type a sequence id should have.
mirrors src/fec.go:174-183 -/
def expected (dec : FecDecoder) (id : UInt32) : UInt16 :=
  if id % UInt32.ofNat dec.shardSize < UInt32.ofNat dec.dataShards then typeData else typeParity

/-- mirrors src/fec.go:174-183 -/
def checked (dec : FecDecoder) (bts : Bytes) : FecDecoder :=
  if flag bts = dec.expected (seqid bts) then dec else { dec with shouldTune := true }

/-- New shard counts; a codec that cannot be made leaves the rest as it was.
mirrors src/fec.go:193-216 -/
def retune (lib : Lib) (dec : FecDecoder) (ds ps : Nat) (id : UInt32) : FecDecoder :=
  let dec := { dec with dataShards := ds, parityShards := ps, shardSize := ds + ps, shardSet := ∅ }
  match lib.newCodec ds ps with
  | none => dec
  | some codec =>
    { dec with codec := codec
               decodeCache := ds + ps
               flagCache := ds + ps
               paws := pawsOf (ds + ps)
               newestShardId := id / UInt32.ofNat (ds + ps)
               shouldTune := false }

/-- mirrors src/fec.go:187-222 -/
def tune (lib : Lib) (dec : FecDecoder) (id : UInt32) : FecDecoder :=
  let autoDS := dec.autoTune.findPeriod lib.sort true
  let autoPS := dec.autoTune.findPeriod lib.sort false
  if 0 < autoDS ∧ 0 < autoPS ∧ autoDS + autoPS ≤ 256 then
    if autoDS ≠ dec.dataShards ∨ autoPS ≠ dec.parityShards then dec.retune lib autoDS.toNat autoPS.toNat id
    else { dec with shouldTune := false }
  else dec

/-- mirrors src/fec.go:338-340 -/
def getShardId (dec : FecDecoder) (id : UInt32) : UInt32 := id / UInt32.ofNat dec.shardSize

/-- Where a shard set starts, as the comparisons compute it. -/
def start (dec : FecDecoder) (shardId : UInt32) : UInt32 := shardId * UInt32.ofNat dec.shardSize

/-- mirrors src/fec.go:248-252 -/
def updateNewest (dec : FecDecoder) (shardId : UInt32) : FecDecoder :=
  if 0 < itimediff (dec.start shardId) (dec.start dec.newestShardId) then { dec with newestShardId := shardId }
  else dec

/-- Whether a set is too old.
mirrors src/fec.go:346 -/
def stale (dec : FecDecoder) (shardId : UInt32) : Bool :=
  decide ((maxShardSets * dec.shardSize : Int) < (itimediff (dec.start dec.newestShardId) (dec.start shardId)).toInt)

/-- mirrors src/fec.go:343-356 -/
def discardShards (dec : FecDecoder) : FecDecoder :=
  { dec with shardSet := dec.shardSet.keep fun id => !dec.stale id }

/-! ## Recovery -/

/-- The decode cache while the set is emptied into it; `none` is the nil
slice, and exactly the others have their flag set. -/
structure Popped where
  shards : List (Option Bytes)
  numDataShard : Nat
  maxlen : Nat

/-- mirrors src/fec.go:274-286 -/
def popShard (dec : FecDecoder) (x : Popped) (pkt : Bytes) : Go Popped :=
  let pos := (seqid pkt % UInt32.ofNat dec.shardSize).toNat
  if dec.decodeCache ≤ pos ∨ dec.flagCache ≤ pos then .error .sliceBounds
  else .ok
    { shards := x.shards.set pos (some (fecData pkt))
      numDataShard := x.numDataShard + if flag pkt = typeData then 1 else 0
      maxlen := max x.maxlen (fecData pkt).length }

/-- A shard of the cache as `ReconstructData` gets it: filled up with zeros
inside its pool buffer, or empty.
mirrors src/fec.go:296-312 -/
def fillUp (maxlen : Nat) : Option Bytes → Go Bytes
  | none => .ok []
  | some s =>
    if maxPacketSize - fecHeaderSize < maxlen then .error .sliceBounds
    else .ok (s ++ List.replicate (maxlen - s.length) 0)

/-- mirrors src/fec.go:325-330 -/
def missing (dataShards : Nat) (cache : List (Option Bytes)) (shards : List Bytes) : List Bytes :=
  ((cache.zip shards).take dataShards).filterMap fun x => if x.1.isNone then some x.2 else none

/-- mirrors src/fec.go:289-334 -/
def reconstruct (dec : FecDecoder) (x : Popped) : Go (List Bytes) :=
  if x.numDataShard = dec.dataShards then .ok []
  else do
    let shards ← x.shards.mapM (fillUp x.maxlen)
    match ← dec.codec.reconstructData shards with
    | none => .ok []
    | some shards =>
      if dec.decodeCache < dec.dataShards then .error .sliceBounds
      else .ok (missing dec.dataShards x.shards shards)

/-- The shards recovered from the elements of a set, popped last first.
mirrors src/fec.go:262-334 -/
def recover (dec : FecDecoder) (elements : List Bytes) : Go (List Bytes) :=
  if dec.flagCache < dec.decodeCache then .error .sliceBounds
  else do
    let x ← elements.reverse.foldlM dec.popShard ⟨List.replicate dec.decodeCache none, 0, 0⟩
    dec.reconstruct x

/-- mirrors src/fec.go:224-334 -/
def receive (dec : FecDecoder) (bts : Bytes) : Go (FecDecoder × List Bytes) :=
  let shardId := dec.getShardId (seqid bts)
  let shard := (dec.shardSet.lookup shardId).getD .empty
  if shard.has (seqid bts) then .ok (dec, [])
  else if maxPacketSize < bts.length then .error .sliceBounds
  else
    let shard := shard.push bts
    let dec := { dec with shardSet := dec.shardSet.insert shardId shard }.updateNewest shardId
    if shard.elements.length < dec.dataShards then .ok (dec.discardShards, [])
    else do
      let recovered ← dec.recover shard.elements
      .ok ({ dec with shardSet := dec.shardSet.insert shardId shard.drain }.discardShards, recovered)

/-- mirrors src/fec.go:161-335 (`decode`) -/
def decode (lib : Lib) (dec : FecDecoder) (bts : Bytes) : Go (FecDecoder × List Bytes) :=
  if bts.length < fecHeaderSize then .error .sliceBounds
  else
    let dec := dec.sampled bts
    if dec.paws ≤ seqid bts then .ok (dec, [])
    else if UInt32.ofNat dec.shardSize = 0 then .error .divideByZero
    else
      let dec := dec.checked bts
      if dec.shouldTune then .ok (dec.tune lib (seqid bts), [])
      else dec.receive bts

end FecDecoder
end KcpGo.L2
