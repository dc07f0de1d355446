import KcpGo.Core.Erasure
import KcpGo.Core.Slice
import KcpGo.L1Encoding.FecPacket
import KcpGo.L2Machine.State

/-!
# The FEC encoder (`fec.go`)

Packets are collected in groups of `dataShards`; a full group is extended by
`parityShards` packets, or skips their numbers when its last two packets came
too far apart. Shard buffers are reused: a slice of the cache keeps what
earlier groups, and the callers that encrypt parity in place, left in it.

`time.Now` is the argument `now`; Reed-Solomon is a `Codec`.
-/
namespace KcpGo.L2

open KcpGo.L1

/-- Sequence ids end before this multiple of the shard size.
mirrors src/fec.go:148,388 -/
def pawsOf (shardSize : Nat) : UInt32 := 0xffffffff / UInt32.ofNat shardSize * UInt32.ofNat shardSize

theorem toNat_ofNat_small {z : Nat} (h : z ≤ 256) : (UInt32.ofNat z).toNat = z := by
  rw [UInt32.toNat_ofNat']
  omega

theorem pawsOf_toNat {z : Nat} (h : z ≤ 256) : (pawsOf z).toNat = (2 ^ 32 - 1) / z * z := by
  have hle : (2 ^ 32 - 1) / z * z ≤ 2 ^ 32 - 1 := Nat.div_mul_le_self _ _
  have hmax : (0xffffffff : UInt32).toNat = 2 ^ 32 - 1 := rfl
  rw [pawsOf, UInt32.toNat_mul, UInt32.toNat_div, toNat_ofNat_small h, hmax]
  exact Nat.mod_eq_of_lt (by omega)

/-- mirrors src/fec.go:358-381 (less `encodeCache`, which every use fills anew) -/
structure FecEncoder where
  dataShards : Nat
  parityShards : Nat
  shardSize : Nat
  paws : UInt32
  next : UInt32
  shardCount : Nat
  maxSize : Nat
  headerOffset : Nat
  payloadOffset : Nat
  shardCache : List Slice
  tsLatestPacket : Int
  codec : Codec

/-- A count that is not positive is 0 here.
mirrors src/fec.go:383-408 (`newFECEncoder`) -/
def newFECEncoder (newCodec : Nat → Nat → Option Codec) (dataShards parityShards offset : Nat) : Option FecEncoder :=
  if dataShards = 0 ∨ parityShards = 0 then none
  else (newCodec dataShards parityShards).map fun codec =>
    { dataShards := dataShards
      parityShards := parityShards
      shardSize := dataShards + parityShards
      paws := pawsOf (dataShards + parityShards)
      next := 0
      shardCount := 0
      maxSize := 0
      headerOffset := offset
      payloadOffset := offset + fecHeaderSize
      shardCache := List.replicate (dataShards + parityShards) (Slice.make maxPacketSize)
      tsLatestPacket := 0
      codec := codec }

namespace FecEncoder

/-- `b` with a FEC header at `headerOffset` and the size field behind it.
mirrors src/fec.go:416-417,509-512 -/
def sealed (enc : FecEncoder) (id : UInt32) (ty : UInt16) (b : Bytes) : Bytes :=
  b.take enc.headerOffset ++ fecHeader id ty ++ LE.put 2 (UInt16.ofNat (b.length - enc.payloadOffset)).toNat ++
    b.drop (enc.payloadOffset + 2)

/-- mirrors src/fec.go:499,505 -/
def advance (enc : FecEncoder) : FecEncoder := { enc with next := (enc.next + 1) % enc.paws }

/-- mirrors src/fec.go:521-523 -/
def skipParity (enc : FecEncoder) : FecEncoder :=
  { enc with next := (enc.next + UInt32.ofNat enc.parityShards) % enc.paws }

/-- The packet enters the cache of its group.
mirrors src/fec.go:416-433 -/
def collect (enc : FecEncoder) (b : Bytes) (now : Int) : Go (FecEncoder × Bytes) :=
  if b.length < enc.payloadOffset + 2 then .error .sliceBounds
  else
    match enc.shardCache[enc.shardCount]? with
    | none => .error .sliceBounds
    | some s => do
      let b' := enc.sealed enc.next typeData b
      let s ← s.reslice b'.length
      let s ← s.writeAt enc.payloadOffset (b'.drop enc.payloadOffset)
      .ok ({ enc.advance with shardCache := enc.shardCache.set enc.shardCount s
                              shardCount := enc.shardCount + 1
                              maxSize := max enc.maxSize b'.length
                              tsLatestPacket := now }, b')

/-- One parity shard: the code's bytes, the header, the length.
mirrors src/fec.go:487-491,502-506 -/
def sealParity (enc : FecEncoder) (maxSize : Nat) (s : Slice) (code : Bytes) : Go Slice := do
  let s ← s.fill enc.payloadOffset code
  let s ← s.writeAt enc.headerOffset (fecHeader enc.next typeParity)
  s.reslice maxSize

/-- The loop over the parity shards; `done` are those already sealed.
mirrors src/fec.go:487-491 -/
def sealAll (maxSize : Nat) : FecEncoder → List Slice → List Bytes → Go (FecEncoder × List Slice)
  | enc, s :: ps, code :: codes => do
    let s ← enc.sealParity maxSize s code
    let (enc, ps) ← sealAll maxSize enc.advance ps codes
    .ok (enc, s :: ps)
  | enc, _, _ => .ok (enc, [])

/-- The parity of a full group.
mirrors src/fec.go:465-492 -/
def makeParity (enc : FecEncoder) (maxSize : Nat) : Go (FecEncoder × List Bytes) := do
  let data ← (enc.shardCache.take enc.dataShards).mapM fun s => s.clearTail maxSize
  let enc := { enc with shardCache := data ++ enc.shardCache.drop enc.dataShards }
  let cache ← enc.shardCache.mapM fun s => s.range enc.payloadOffset maxSize
  match ← enc.codec.encode cache with
  | none => .ok (enc.skipParity, [])
  | some out => do
    let (enc, ps) ← sealAll maxSize enc (enc.shardCache.drop enc.dataShards) (out.drop enc.dataShards)
    .ok ({ enc with shardCache := data ++ ps }, ps.map Slice.bytes)

/-- The encoder afterwards, the packet with its header, and the parity
packets made.
mirrors src/fec.go:412-493 (`encode`) -/
def encode (enc : FecEncoder) (b : Bytes) (now : Int) (rto : UInt32) : Go (FecEncoder × Bytes × List Bytes) := do
  let (enc', b') ← enc.collect b now
  if enc'.shardCount ≠ enc'.dataShards then .ok (enc', b', [])
  else
    let full := { enc' with shardCount := 0, maxSize := 0 }
    if (rto.toNat : Int) ≤ now - enc.tsLatestPacket then .ok (full.skipParity, b', [])
    else do
      let (enc', ps) ← full.makeParity enc'.maxSize
      .ok (enc', b', ps)

/-- mirrors src/fec.go:509-518 (`encodeOOB`) -/
def encodeOOB (enc : FecEncoder) (b : Bytes) : Go Bytes :=
  if b.length < enc.payloadOffset + 2 then .error .sliceBounds else .ok (enc.sealed 0xffffffff typeOOB b)

end FecEncoder
end KcpGo.L2
