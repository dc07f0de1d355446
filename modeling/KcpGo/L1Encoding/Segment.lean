import KcpGo.Core.Bytes
import KcpGo.Core.Serial

/-!
# The KCP segment and its 24-byte header (`kcp.go`)

`segment.encode` writes conv, cmd, frg, wnd, ts, sn, una and the payload
length little-endian at fixed offsets; the header loop of `KCP.Input` reads
them back at the same offsets.

* `readHeader_encode`: the reader recovers every field the writer wrote,
  whatever follows the header.
* `encodeAll`: the packets `flush` builds are runs of header and payload.
-/
namespace KcpGo.L1

/-! Commands (src/kcp.go:40-43). -/
def IKCP_CMD_PUSH : UInt8 := 81
def IKCP_CMD_ACK : UInt8 := 82
def IKCP_CMD_WASK : UInt8 := 83
def IKCP_CMD_WINS : UInt8 := 84

/-- Header size (src/kcp.go:57). -/
def IKCP_OVERHEAD : Nat := 24

/-- mirrors src/kcp.go:115-117 (`_itimediff`) -/
abbrev itimediff (later earlier : UInt32) : Int32 := Serial.diff later earlier

/-- A segment; `data = none` is the nil slice.
mirrors src/kcp.go:120-134 -/
structure Segment where
  conv : UInt32 := 0
  cmd : UInt8 := 0
  frg : UInt8 := 0
  wnd : UInt16 := 0
  ts : UInt32 := 0
  sn : UInt32 := 0
  una : UInt32 := 0
  rto : UInt32 := 0
  xmit : UInt32 := 0
  resendts : UInt32 := 0
  fastack : UInt32 := 0
  acked : UInt32 := 0
  data : Option Bytes := none
  deriving DecidableEq, Repr

namespace Segment

/-- The bytes of `seg.data`. -/
def bytes (s : Segment) : Bytes := s.data.getD []

/-- `len(seg.data)`. -/
def len (s : Segment) : Nat := s.bytes.length

/-- The segment less what a transmission stamps on it (wnd, ts, una and the
retransmission state). -/
def core (s : Segment) : Segment :=
  { s with wnd := 0, ts := 0, una := 0, rto := 0, xmit := 0, resendts := 0, fastack := 0 }

@[simp] theorem core_sn (s : Segment) : s.core.sn = s.sn := rfl
@[simp] theorem core_frg (s : Segment) : s.core.frg = s.frg := rfl
@[simp] theorem core_cmd (s : Segment) : s.core.cmd = s.cmd := rfl
@[simp] theorem core_conv (s : Segment) : s.core.conv = s.conv := rfl
@[simp] theorem core_acked (s : Segment) : s.core.acked = s.acked := rfl
@[simp] theorem core_data (s : Segment) : s.core.data = s.data := rfl
@[simp] theorem core_core (s : Segment) : s.core.core = s.core := rfl

/-- The header `encode` writes.
mirrors src/kcp.go:137-149 -/
def header (s : Segment) : Bytes :=
  LE.put 4 s.conv.toNat ++ [s.cmd, s.frg] ++ LE.put 2 s.wnd.toNat ++ LE.put 4 s.ts.toNat ++
    LE.put 4 s.sn.toNat ++ LE.put 4 s.una.toNat ++ LE.put 4 (Serial.u32 s.len).toNat

@[simp] theorem header_length (s : Segment) : s.header.length = 24 := by
  simp [header]

/-- Header followed by payload. -/
def wire (s : Segment) : Bytes := s.header ++ s.bytes

@[simp] theorem wire_length (s : Segment) : s.wire.length = 24 + s.len := by
  simp [wire, len]

end Segment

/-- The fields the header loop of `Input` reads.
mirrors src/kcp.go:620-627 -/
structure Header where
  conv : UInt32
  cmd : UInt8
  frg : UInt8
  wnd : UInt16
  ts : UInt32
  sn : UInt32
  una : UInt32
  length : UInt32
  deriving DecidableEq, Repr

/-- mirrors src/kcp.go:620-627 -/
def readHeader (data : Bytes) : Header where
  conv := LE.u32 data 0
  cmd := data.getD 4 0
  frg := data.getD 5 0
  wnd := LE.u16 data 6
  ts := LE.u32 data 8
  sn := LE.u32 data 12
  una := LE.u32 data 16
  length := LE.u32 data 20

/-- The header of a segment, as a reader sees it. -/
def Segment.head (s : Segment) : Header where
  conv := s.conv
  cmd := s.cmd
  frg := s.frg
  wnd := s.wnd
  ts := s.ts
  sn := s.sn
  una := s.una
  length := Serial.u32 s.len

/-- **Round trip.** The header loop reads every field `encode` wrote. -/
theorem readHeader_encode (s : Segment) (rest : Bytes) : readHeader (s.header ++ rest) = s.head := by
  have get1 : ∀ (pre post : Bytes) (x : UInt8) (off : Nat), pre.length = off →
      (pre ++ x :: post).getD off 0 = x := by
    intro pre post x off h; subst h; simp
  simp only [readHeader, Segment.head, Header.mk.injEq]
  refine ⟨?_, ?_, ?_, ?_, ?_, ?_, ?_, ?_⟩
  · simpa [Segment.header] using LE.u32_put [] ([s.cmd, s.frg] ++ LE.put 2 s.wnd.toNat ++
      LE.put 4 s.ts.toNat ++ LE.put 4 s.sn.toNat ++ LE.put 4 s.una.toNat ++
      LE.put 4 (Serial.u32 s.len).toNat ++ rest) s.conv 0 rfl
  · simp only [Segment.header, List.append_assoc, List.cons_append]
    exact get1 _ _ _ _ (by simp)
  · simp only [Segment.header, List.append_assoc, List.cons_append]
    rw [← List.singleton_append, ← List.append_assoc]
    exact get1 _ _ _ _ (by simp)
  · rw [← LE.u16_put (LE.put 4 s.conv.toNat ++ [s.cmd, s.frg]) (LE.put 4 s.ts.toNat ++
      LE.put 4 s.sn.toNat ++ LE.put 4 s.una.toNat ++ LE.put 4 (Serial.u32 s.len).toNat ++ rest)
      s.wnd 6 (by simp)]
    simp [Segment.header]
  · rw [← LE.u32_put (LE.put 4 s.conv.toNat ++ [s.cmd, s.frg] ++ LE.put 2 s.wnd.toNat)
      (LE.put 4 s.sn.toNat ++ LE.put 4 s.una.toNat ++ LE.put 4 (Serial.u32 s.len).toNat ++ rest)
      s.ts 8 (by simp)]
    simp [Segment.header]
  · rw [← LE.u32_put (LE.put 4 s.conv.toNat ++ [s.cmd, s.frg] ++ LE.put 2 s.wnd.toNat ++
      LE.put 4 s.ts.toNat) (LE.put 4 s.una.toNat ++ LE.put 4 (Serial.u32 s.len).toNat ++ rest)
      s.sn 12 (by simp)]
    simp [Segment.header]
  · rw [← LE.u32_put (LE.put 4 s.conv.toNat ++ [s.cmd, s.frg] ++ LE.put 2 s.wnd.toNat ++
      LE.put 4 s.ts.toNat ++ LE.put 4 s.sn.toNat) (LE.put 4 (Serial.u32 s.len).toNat ++ rest)
      s.una 16 (by simp)]
    simp [Segment.header]
  · rw [← LE.u32_put (LE.put 4 s.conv.toNat ++ [s.cmd, s.frg] ++ LE.put 2 s.wnd.toNat ++
      LE.put 4 s.ts.toNat ++ LE.put 4 s.sn.toNat ++ LE.put 4 s.una.toNat) rest
      (Serial.u32 s.len) 20 (by simp)]
    simp [Segment.header]

/-- A packet body: the wire images of `segs`, in order. -/
def encodeAll (segs : List Segment) : Bytes := segs.flatMap Segment.wire

@[simp] theorem encodeAll_nil : encodeAll [] = [] := rfl

@[simp] theorem encodeAll_cons (s : Segment) (segs : List Segment) :
    encodeAll (s :: segs) = s.wire ++ encodeAll segs := rfl

@[simp] theorem encodeAll_append (a b : List Segment) : encodeAll (a ++ b) = encodeAll a ++ encodeAll b := by
  simp [encodeAll]

theorem encodeAll_length_ge (segs : List Segment) : 24 * segs.length ≤ (encodeAll segs).length := by
  induction segs with
  | nil => simp
  | cons s segs ih => simp; omega

end KcpGo.L1
