import KcpGo.L1Encoding.Segment

/-!
# The FEC header (`fec.go`)

    | FEC SEQID (4B) | FEC TYPE (2B) | SIZE (2B) | PAYLOAD (SIZE-2) |

`SIZE` counts itself and the payload; it and the payload are what the erasure
code protects (`fecPacket.data`).

* `seqid_sealed`, `flag_sealed`, `data_sealed`: the reader recovers what
  `sealData` and `sealParity` wrote, whatever follows.
* `Sized.cut`: a size-prefixed payload survives any padding.
-/
namespace KcpGo.L1

/-! Constants (src/fec.go:52-59). -/
def fecHeaderSize : Nat := 6
def fecHeaderSizePlus2 : Nat := 8
def typeData : UInt16 := 0xf1
def typeParity : UInt16 := 0xf2
def typeOOB : UInt16 := 0xf3
def maxShardSets : Nat := 3

/-- mirrors src/fec.go:64 -/
def seqid (bts : Bytes) : UInt32 := LE.u32 bts 0

/-- mirrors src/fec.go:65 -/
def flag (bts : Bytes) : UInt16 := LE.u16 bts 4

/-- mirrors src/fec.go:66 -/
def fecData (bts : Bytes) : Bytes := bts.drop 6

/-- The header `sealData`, `sealParity` and `sealOOB` write.
mirrors src/fec.go:496-506,515-518 -/
def fecHeader (id : UInt32) (ty : UInt16) : Bytes := LE.put 4 id.toNat ++ LE.put 2 ty.toNat

@[simp] theorem fecHeader_length (id : UInt32) (ty : UInt16) : (fecHeader id ty).length = 6 := by
  simp [fecHeader]

@[simp] theorem seqid_sealed (id : UInt32) (ty : UInt16) (rest : Bytes) :
    seqid (fecHeader id ty ++ rest) = id := by
  have := LE.u32_put [] (LE.put 2 ty.toNat ++ rest) id 0 rfl
  simpa [seqid, fecHeader] using this

@[simp] theorem flag_sealed (id : UInt32) (ty : UInt16) (rest : Bytes) :
    flag (fecHeader id ty ++ rest) = ty :=
  LE.u16_put (LE.put 4 id.toNat) rest ty 4 (LE.put_length _ _)

@[simp] theorem data_sealed (id : UInt32) (ty : UInt16) (rest : Bytes) :
    fecData (fecHeader id ty ++ rest) = rest :=
  List.drop_left' (fecHeader_length id ty)

/-! ## Size-prefixed payloads -/

/-- A payload behind the size field that counts both. -/
def Sized (s : Bytes) : Prop := 2 ≤ s.length ∧ (LE.u16 s 0).toNat = s.length

/-- The size field is in the first two bytes. -/
theorem u16_append {s : Bytes} (h : 2 ≤ s.length) (rest : Bytes) : LE.u16 (s ++ rest) 0 = LE.u16 s 0 := by
  simp only [LE.u16, List.drop_zero]
  rw [List.take_append_of_le_length h]

theorem Sized.append {s : Bytes} (h : Sized s) (pad : Bytes) :
    (LE.u16 (s ++ pad) 0).toNat = s.length := by
  rw [u16_append h.1, h.2]

/-- A recovered shard without what fills it up; `none` when its size field is
no length.
mirrors src/sess.go:1137-1140 -/
def cut (r : Bytes) : Option Bytes :=
  let sz := (LE.u16 r 0).toNat
  if 2 ≤ r.length ∧ sz ≤ r.length ∧ 2 ≤ sz then some (r.take sz) else none

/-- **Padding is cut off.** -/
theorem Sized.cut {s : Bytes} (h : Sized s) (pad : Bytes) : L1.cut (s ++ pad) = some s := by
  have h2 := h.1
  simp only [L1.cut, h.append, List.length_append]
  rw [if_pos (by omega), List.take_left' rfl]

theorem sized_put {n : Nat} {payload : Bytes} (hn : payload.length + 2 = n) (h : n < 2 ^ 16) :
    Sized (LE.put 2 (UInt16.ofNat n).toNat ++ payload) := by
  have hlen : (LE.put 2 (UInt16.ofNat n).toNat ++ payload).length = n := by
    simp only [List.length_append, LE.put_length]
    omega
  refine ⟨by omega, ?_⟩
  have hput := LE.u16_put [] payload (UInt16.ofNat n) 0 rfl
  rw [List.nil_append] at hput
  rw [hput, hlen, UInt16.toNat_ofNat']
  omega

end KcpGo.L1
