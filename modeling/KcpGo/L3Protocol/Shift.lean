import KcpGo.L3Protocol.SendWindow
import Mathlib.Data.List.Forall2

/-!
# Shifting the sequence numbers: the ingredients

Two control blocks whose send-side numbers differ by `c` and whose
receive-side numbers differ by `e`, everything else being equal (`ShiftOf`).
The `una` stored in a buffered segment is overwritten before it is sent and
never read on the receive side, so it is left free.

Here every function under `Input`, `Recv` and the setters is shown to keep the
relation; `ShiftRun` does `flush` and whole runs.
-/
namespace KcpGo.L2

open KcpGo.L1 KcpGo.Serial List

variable {l l' : List Segment}

/-- The same segment with its number shifted. -/
def CellShift (d : UInt32) (s s' : Segment) : Prop := s' = { s with sn := s.sn + d, una := s'.una }

def AckItem.shift (e : UInt32) (a : AckItem) : AckItem := { a with sn := a.sn + e }

def HeapShift (e : UInt32) (h h' : SegHeap) : Prop :=
  Forall₂ (CellShift e) h.segments h'.segments ∧ h'.marks = h.marks.image (· + e)

/-- `k'` is `k` with the send-side numbers shifted by `c` and the receive-side
numbers by `e`: all windows, timers and congestion variables agree. -/
def ShiftOf (c e : UInt32) (k k' : KCP) : Prop :=
  ∃ b h q, k' = { k with sndUna := k.sndUna + c
                         sndNxt := k.sndNxt + c
                         rcvNxt := k.rcvNxt + e
                         acklist := k.acklist.map (AckItem.shift e)
                         sndBuf := b
                         rcvBuf := h
                         rcvQueue := q } ∧
    Forall₂ (CellShift c) k.sndBuf b ∧ HeapShift e k.rcvBuf h ∧ Forall₂ (CellShift e) k.rcvQueue q

variable {c d e : UInt32}

namespace CellShift

variable {s s' : Segment}

theorem sn (h : CellShift d s s') : s'.sn = s.sn + d := by rw [h]
theorem frg (h : CellShift d s s') : s'.frg = s.frg := by rw [h]
theorem acked (h : CellShift d s s') : s'.acked = s.acked := by rw [h]
theorem ts (h : CellShift d s s') : s'.ts = s.ts := by rw [h]
theorem fastack (h : CellShift d s s') : s'.fastack = s.fastack := by rw [h]
theorem resendts (h : CellShift d s s') : s'.resendts = s.resendts := by rw [h]
theorem xmit (h : CellShift d s s') : s'.xmit = s.xmit := by rw [h]
theorem bytes (h : CellShift d s s') : s'.bytes = s.bytes := by rw [h]; rfl
theorem len (h : CellShift d s s') : s'.len = s.len := by rw [h]; rfl

end CellShift

theorem itimediff_shift (a b d : UInt32) : itimediff (a + d) (b + d) = itimediff a b := diff_shift a b d

theorem add_comm_shift (a w d : UInt32) : a + d + w = a + w + d := by
  rw [UInt32.add_assoc, UInt32.add_comm d, UInt32.add_assoc]

/-! ## Acknowledgements -/

theorem unaCount_shift (h : Forall₂ (CellShift c) l l') (una : UInt32) :
    KCP.unaCount (una + c) l' = KCP.unaCount una l := by
  induction h with
  | nil => rfl
  | cons hs _ ih => rw [KCP.unaCount, KCP.unaCount, hs.sn, itimediff_shift, ih]

theorem markAcked_shift (h : Forall₂ (CellShift c) l l') (sn : UInt32) :
    Forall₂ (CellShift c) (KCP.markAcked sn l) (KCP.markAcked (sn + c) l') := by
  induction h with
  | nil => exact .nil
  | @cons s s' q q' hs hq ih =>
    rw [KCP.markAcked, KCP.markAcked, hs.sn, itimediff_shift]
    simp only [add_right_inj]
    split
    · refine .cons ?_ hq
      unfold CellShift
      rw [hs]
    · split
      · exact .cons hs hq
      · exact .cons hs ih

theorem bumpFastack_shift (h : Forall₂ (CellShift c) l l') (sn ts fr : UInt32) :
    Forall₂ (CellShift c) (KCP.bumpFastack sn ts fr l).1 (KCP.bumpFastack (sn + c) ts fr l').1 ∧
      (KCP.bumpFastack (sn + c) ts fr l').2 = (KCP.bumpFastack sn ts fr l).2 := by
  induction h with
  | nil => exact ⟨.nil, rfl⟩
  | @cons s s' q q' hs hq ih =>
    rw [KCP.bumpFastack, KCP.bumpFastack, hs.sn, hs.ts, hs.fastack, itimediff_shift]
    simp only [ne_eq, add_right_inj]
    split
    · exact ⟨.cons hs hq, rfl⟩
    · split
      · refine ⟨.cons ?_ ih.1, by rw [ih.2]⟩
        unfold CellShift
        rw [hs]
      · exact ⟨.cons hs ih.1, ih.2⟩

theorem firstSn_shift (h : Forall₂ (CellShift c) l l') (nxt : UInt32) :
    KCP.firstSn (nxt + c) l' = KCP.firstSn nxt l + c := by
  cases h with
  | nil => rfl
  | cons hs _ => exact hs.sn

/-- A header of an incoming packet with its numbers shifted: una and the sn of
an ACK refer to the send side, the sn of a PUSH to the receive side. -/
def shiftHeader (c e : UInt32) (h : Header) : Header :=
  { h with una := h.una + c
           sn := if h.cmd = IKCP_CMD_ACK then h.sn + c else if h.cmd = IKCP_CMD_PUSH then h.sn + e else h.sn }

theorem inputHead_shift {k k' : KCP} (h : ShiftOf c e k k') (pkt : PacketType) (hd : Header) :
    ShiftOf c e (k.inputHead pkt hd).1 (k'.inputHead pkt (shiftHeader c e hd)).1 ∧
      (k'.inputHead pkt (shiftHeader c e hd)).2 = (k.inputHead pkt hd).2 := by
  obtain ⟨b, hp, q, rfl, hb, hh, hq⟩ := h
  have hn := unaCount_shift hb hd.una
  have hdrop : Forall₂ (CellShift c) (k.sndBuf.drop (KCP.unaCount hd.una k.sndBuf))
      (b.drop (KCP.unaCount hd.una k.sndBuf)) := forall₂_drop _ hb
  have hfirst := firstSn_shift hdrop k.sndNxt
  cases pkt
  · simp only [KCP.inputHead, KCP.parseUna, KCP.shrinkBuf, if_true, shiftHeader, hn, hfirst, and_true]
    exact ⟨_, _, _, rfl, hdrop, hh, hq⟩
  · simp only [KCP.inputHead, KCP.parseUna, KCP.shrinkBuf, reduceCtorEq, if_false, shiftHeader, hn, hfirst,
      and_true]
    exact ⟨_, _, _, rfl, hdrop, hh, hq⟩

theorem inputAck_shift {k k' : KCP} (h : ShiftOf c e k k') (sn ts : UInt32) :
    ShiftOf c e ((k.parseAck sn).parseFastack sn ts).1 ((k'.parseAck (sn + c)).parseFastack (sn + c) ts).1 ∧
      ((k'.parseAck (sn + c)).parseFastack (sn + c) ts).2 = ((k.parseAck sn).parseFastack sn ts).2 := by
  obtain ⟨b, hp, q, rfl, hb, hh, hq⟩ := h
  by_cases hout : itimediff sn k.sndUna < 0 ∨ 0 ≤ itimediff sn k.sndNxt
  · simp only [KCP.parseAck, KCP.parseFastack, itimediff_shift, hout, if_true, and_true]
    exact ⟨_, _, _, rfl, hb, hh, hq⟩
  · have hm := markAcked_shift hb sn
    have hbump := bumpFastack_shift hm sn ts k.fastresend.toUInt32
    simp only [KCP.parseAck, KCP.parseFastack, itimediff_shift, hout, if_false]
    exact ⟨⟨_, _, _, rfl, hbump.1, hh, hq⟩, hbump.2⟩

/-! ## The reorder heap -/

/-- The number shifted and una forgotten. -/
def relabel (d : UInt32) (s : Segment) : Segment := { s with sn := s.sn + d, una := 0 }

theorem less_relabel (d : UInt32) (x y : Segment) :
    SegHeap.less (relabel d x) (relabel d y) = SegHeap.less x y := by
  simp only [SegHeap.less, relabel, itimediff_shift]

theorem cellShift_iff {s s' : Segment} : CellShift d s s' ↔ relabel d s = relabel 0 s' := by
  unfold CellShift relabel
  constructor
  · intro h
    rw [h]
    simp
  · intro h
    cases s; cases s'
    simp only [Segment.mk.injEq, UInt32.add_zero] at h ⊢
    obtain ⟨h1, h2, h3, h4, h5, h6, -, h8, h9, h10, h11, h12, h13⟩ := h
    exact ⟨h1.symm, h2.symm, h3.symm, h4.symm, h5.symm, h6.symm, trivial, h8.symm, h9.symm, h10.symm,
      h11.symm, h12.symm, h13.symm⟩

theorem forall₂_cellShift :
    Forall₂ (CellShift d) l l' ↔ l.map (relabel d) = l'.map (relabel 0) := by
  rw [← forall₂_eq_eq_eq, forall₂_map_left_iff, forall₂_map_right_iff]
  constructor
  · exact fun h => h.imp fun _ _ => cellShift_iff.mp
  · exact fun h => h.imp fun _ _ => cellShift_iff.mpr

theorem shift_injective (d : UInt32) : Function.Injective (· + d : UInt32 → UInt32) :=
  fun _ _ h => add_right_inj.mp h

theorem has_shift {h h' : SegHeap} (hh : HeapShift e h h') (sn : UInt32) : h'.has (sn + e) = h.has sn := by
  unfold SegHeap.has
  rw [hh.2, decide_eq_decide]
  exact (shift_injective e).mem_finset_image

theorem push_shift {h h' : SegHeap} (hh : HeapShift e h h') {s s' : Segment} (hs : CellShift e s s') :
    HeapShift e (h.push s) (h'.push s') := by
  refine ⟨?_, ?_⟩
  · rw [forall₂_cellShift]
    simp only [SegHeap.push]
    rw [← BinHeap.push_map (less_relabel e), ← BinHeap.push_map (less_relabel 0),
      forall₂_cellShift.mp hh.1, cellShift_iff.mp hs]
  · simp only [SegHeap.push, hh.2, hs.sn, Finset.image_insert]

theorem pop_shift {h h' : SegHeap} (hh : HeapShift e h h') :
    (h.pop = none ∧ h'.pop = none) ∨ ∃ s s' r r', h.pop = some (s, r) ∧ h'.pop = some (s', r') ∧
      CellShift e s s' ∧ HeapShift e r r' := by
  have hmap : (BinHeap.pop SegHeap.less h.segments).map (fun p => (relabel e p.1, p.2.map (relabel e))) =
      (BinHeap.pop SegHeap.less h'.segments).map (fun p => (relabel 0 p.1, p.2.map (relabel 0))) := by
    rw [← BinHeap.pop_map (less_relabel e), ← BinHeap.pop_map (less_relabel 0), forall₂_cellShift.mp hh.1]
  unfold SegHeap.pop
  cases hp : BinHeap.pop SegHeap.less h.segments with
  | none =>
    rw [hp] at hmap
    cases hp' : BinHeap.pop SegHeap.less h'.segments with
    | none => exact .inl ⟨rfl, rfl⟩
    | some p' => rw [hp'] at hmap; cases hmap
  | some p =>
    rw [hp] at hmap
    cases hp' : BinHeap.pop SegHeap.less h'.segments with
    | none => rw [hp'] at hmap; cases hmap
    | some p' =>
      rw [hp'] at hmap
      simp only [Option.map_some, Option.some.injEq, Prod.mk.injEq] at hmap
      have hs : CellShift e p.1 p'.1 := cellShift_iff.mpr hmap.1
      refine .inr ⟨p.1, p'.1, ⟨p.2, h.marks.erase p.1.sn⟩, ⟨p'.2, h'.marks.erase p'.1.sn⟩, rfl, rfl, hs,
        forall₂_cellShift.mpr hmap.2, ?_⟩
      dsimp only
      rw [hh.2, hs.sn, Finset.image_erase (shift_injective e)]

theorem moveReady_shift : ∀ (n : Nat) {k k' : KCP}, ShiftOf c e k k' →
    ShiftOf c e (KCP.moveReady n k) (KCP.moveReady n k') := by
  intro n
  induction n with
  | zero => exact fun h => h
  | succ n ih =>
    intro k k' h
    obtain ⟨b, hp, q, rfl, hb, hh, hq⟩ := h
    rw [KCP.moveReady, KCP.moveReady]
    rcases pop_shift hh with ⟨h1, h2⟩ | ⟨s, s', r, r', h1, h2, hs, hr⟩
    · rw [h1, h2]
      exact ⟨_, _, _, rfl, hb, hh, hq⟩
    · rw [h1, h2]
      refine Go.rel_ite ?_ (fun _ => ih ⟨b, r', q ++ [s'], ?_, hb, hr, rel_append hq (.cons hs .nil)⟩)
        (fun _ => ⟨_, _, _, rfl, hb, push_shift hr hs, hq⟩)
      · dsimp only
        rw [hs.sn, add_right_inj, hq.length_eq]
      · simp only [add_comm_shift]

theorem moveAll_shift {k k' : KCP} (h : ShiftOf c e k k') : ShiftOf c e k.moveAll k'.moveAll := by
  have hlen : k'.rcvBuf.segments.length = k.rcvBuf.segments.length := by
    obtain ⟨b, hp, q, rfl, -, hh, -⟩ := h
    exact hh.1.length_eq.symm
  unfold KCP.moveAll
  rw [hlen]
  exact moveReady_shift _ h

/-! ## The segments of a packet -/

theorem ackPush_shift {k k' : KCP} (h : ShiftOf c e k k') (sn ts : UInt32) :
    ShiftOf c e (k.ackPush sn ts) (k'.ackPush (sn + e) ts) := by
  obtain ⟨b, hp, q, rfl, hb, hh, hq⟩ := h
  refine ⟨b, hp, q, ?_, hb, hh, hq⟩
  simp only [KCP.ackPush, List.map_append, List.map_cons, List.map_nil, AckItem.shift]

theorem parseData_shift {k k' : KCP} (h : ShiftOf c e k k') {s s' : Segment} (hs : CellShift e s s') :
    Go.Both (fun p p' => ShiftOf c e p.1 p'.1 ∧ p'.2 = p.2) (k.parseData s) (k'.parseData s') := by
  have hk := h
  obtain ⟨b, hp, q, rfl, hb, hh, hq⟩ := h
  unfold KCP.parseData
  refine Go.rel_ite ?_ (fun _ => ⟨hk, rfl⟩) fun _ => Go.rel_ite ?_ (fun _ => ⟨moveAll_shift hk, rfl⟩) fun _ =>
    Go.rel_ite ?_ (fun _ => rfl) fun _ => ⟨moveAll_shift ⟨b, _, q, rfl, hb, push_shift hh hs, hq⟩, rfl⟩
  · simp only [hs.sn, add_comm_shift k.rcvNxt k.rcvWnd e, itimediff_shift]
  · simp only [hs.sn, has_shift hh]
  · rw [hs.len]

theorem inputPush_shift {k k' : KCP} (h : ShiftOf c e k k') {hd : Header} (hcmd : hd.cmd = IKCP_CMD_PUSH)
    (payload : Bytes) :
    Go.Both (ShiftOf c e) (k.inputPush hd payload) (k'.inputPush (shiftHeader c e hd) payload) := by
  have hsn : (shiftHeader c e hd).sn = hd.sn + e := by
    simp [shiftHeader, hcmd, IKCP_CMD_PUSH, IKCP_CMD_ACK]
  have hack := ackPush_shift h hd.sn hd.ts
  have hcell : CellShift e (KCP.pushed hd payload) (KCP.pushed (shiftHeader c e hd) payload) := by
    unfold CellShift
    simp only [KCP.pushed, hsn]
    rfl
  have hk := h
  obtain ⟨b, hp, q, rfl, hb, hh, hq⟩ := h
  unfold KCP.inputPush
  rw [hsn]
  refine Go.rel_ite ?_ (fun _ => Go.rel_ite ?_ (fun _ => ?_) fun _ => hack) fun _ => hk
  · rw [add_comm_shift k.rcvNxt, itimediff_shift]
  · rw [itimediff_shift]
  · exact (parseData_shift hack hcell).bind fun p p' hp => hp.1

/-- The loop variables side by side. -/
structure LoopShift (c e : UInt32) (st st' : InLoop) : Prop where
  k : ShiftOf c e st.k st'.k
  latest : st'.latest = st.latest
  updateRTT : st'.updateRTT = st.updateRTT
  flushSegments : st'.flushSegments = st.flushSegments

theorem inputSeg_shift (pkt : PacketType) (hd : Header) (payload : Bytes) {st st' : InLoop}
    (h : LoopShift c e st st') :
    Go.Both (LoopShift c e) (KCP.inputSeg pkt hd payload st)
      (KCP.inputSeg pkt (shiftHeader c e hd) payload st') := by
  obtain ⟨hk, hn⟩ := inputHead_shift h.k pkt hd
  have hfl : (st'.flushSegments || decide (0 < (st'.k.inputHead pkt (shiftHeader c e hd)).2)) =
      (st.flushSegments || decide (0 < (st.k.inputHead pkt hd).2)) := by
    rw [h.flushSegments, hn]
  have hts : (shiftHeader c e hd).ts = hd.ts := rfl
  unfold KCP.inputSeg
  dsimp only
  refine Go.rel_ite Iff.rfl (fun hack => ?_) fun _ => Go.rel_ite Iff.rfl (fun hpush => ?_) fun _ =>
    Go.rel_ite Iff.rfl (fun _ => ?_) fun _ => ?_
  · have hsn : (shiftHeader c e hd).sn = hd.sn + c := by simp [shiftHeader, hack]
    obtain ⟨ha, hb⟩ := inputAck_shift hk hd.sn hd.ts
    rw [hsn, hts]
    exact ⟨ha, rfl, rfl, by dsimp only; rw [hfl, hb]⟩
  · exact (inputPush_shift hk hpush payload).bind fun k k' hk' =>
      ⟨hk', h.latest, h.updateRTT, hfl⟩
  · refine ⟨?_, h.latest, h.updateRTT, hfl⟩
    obtain ⟨b, hp, q, heq, hb, hh, hq⟩ := hk
    dsimp only
    rw [heq]
    exact ⟨b, hp, q, rfl, hb, hh, hq⟩
  · exact ⟨hk, h.latest, h.updateRTT, hfl⟩

/-! ## Incoming packets -/

/-- The first 24 bytes of `data` with `sn` and `una` replaced. -/
def patchHeader (sn una : UInt32) (data : Bytes) : Bytes :=
  data.take 12 ++ LE.put 4 sn.toNat ++ LE.put 4 una.toNat ++ (data.drop 20).take 4

theorem patchHeader_length (sn una : UInt32) {data : Bytes} (h : 24 ≤ data.length) :
    (patchHeader sn una data).length = 24 := by
  simp [patchHeader]
  omega

theorem readHeader_patch (sn una : UInt32) {data : Bytes} (h : 24 ≤ data.length) (rest : Bytes) :
    readHeader (patchHeader sn una data ++ rest) = { readHeader data with sn := sn, una := una } := by
  have low : ∀ (tail : Bytes) (off n : Nat), off + n ≤ 12 →
      ((data.take 12 ++ tail).drop off).take n = (data.drop off).take n := by
    intro tail off n hn
    have h1 : off ≤ (data.take 12).length := by simp; omega
    rw [List.drop_append_of_le_length h1, List.take_append_of_le_length (by simp; omega), List.drop_take,
      List.take_take]
    congr 1
    omega
  have byte : ∀ (tail : Bytes) (i : Nat), i < 12 → (data.take 12 ++ tail).getD i 0 = data.getD i 0 := by
    intro tail i hi
    rw [List.getD_eq_getElem?_getD, List.getD_eq_getElem?_getD,
      List.getElem?_append_left (by simp; omega), List.getElem?_take_of_lt hi]
  have shape : patchHeader sn una data ++ rest = data.take 12 ++ (LE.put 4 sn.toNat ++ (LE.put 4 una.toNat ++
      ((data.drop 20).take 4 ++ rest))) := by
    simp [patchHeader]
  have hsn := LE.u32_put (data.take 12) (LE.put 4 una.toNat ++ ((data.drop 20).take 4 ++ rest)) sn 12
    (by simp; omega)
  have huna := LE.u32_put (data.take 12 ++ LE.put 4 sn.toNat) ((data.drop 20).take 4 ++ rest) una 16
    (by simp; omega)
  have hlen : LE.u32 (patchHeader sn una data ++ rest) 20 = LE.u32 data 20 := by
    unfold LE.u32
    have hpre : (data.take 12 ++ LE.put 4 sn.toNat ++ LE.put 4 una.toNat).length = 20 := by
      simp
      omega
    rw [patchHeader, List.append_assoc, List.drop_left' hpre, List.take_left' (by simp; omega)]
  simp only [readHeader, Header.mk.injEq]
  rw [hlen, shape]
  refine ⟨?_, byte _ 4 (by omega), byte _ 5 (by omega), ?_, ?_, ?_, ?_, rfl⟩
  · simp only [LE.u32, low _ 0 4 (by omega)]
  · simp only [LE.u16, low _ 6 2 (by omega)]
  · simp only [LE.u32, low _ 8 4 (by omega)]
  · simpa using hsn
  · simpa using huna

/-- The bytes of an incoming packet with the numbers of every header shifted,
following the header loop of `Input` on any bytes. -/
def shiftIn (c e : UInt32) : Nat → Bytes → Bytes
  | 0, data => data
  | n + 1, data =>
    if data.length < IKCP_OVERHEAD then data
    else
      let h := readHeader data
      let body := data.drop IKCP_OVERHEAD
      patchHeader (shiftHeader c e h).sn (shiftHeader c e h).una data ++
        (body.take h.length.toNat ++ shiftIn c e n (body.drop h.length.toNat))

def shiftPacket (c e : UInt32) (data : Bytes) : Bytes := shiftIn c e data.length data

@[simp] theorem shiftIn_length (c e : UInt32) : ∀ (n : Nat) (data : Bytes),
    (shiftIn c e n data).length = data.length := by
  intro n
  induction n with
  | zero => exact fun _ => rfl
  | succ n ih =>
    intro data
    rw [shiftIn]
    split
    · rfl
    · rename_i h
      have h24 : 24 ≤ data.length := Nat.le_of_not_lt h
      simp only [List.length_append, patchHeader_length _ _ h24, ih, List.length_take, List.length_drop,
        IKCP_OVERHEAD]
      omega

theorem inputLoop_shift (pkt : PacketType) : ∀ (n : Nat) (data : Bytes) {st st' : InLoop},
    LoopShift c e st st' →
    Go.Both (fun r r' => LoopShift c e r.1 r'.1 ∧ r'.2 = r.2) (KCP.inputLoop pkt n data st)
      (KCP.inputLoop pkt n (shiftIn c e n data) st') := by
  intro n
  induction n with
  | zero => exact fun _ _ _ h => ⟨h, rfl⟩
  | succ n ih =>
    intro data st st' h
    rw [KCP.inputLoop, KCP.inputLoop]
    refine Go.rel_ite (by rw [shiftIn_length]) (fun _ => ⟨h, rfl⟩) fun hlen => ?_
    have h24 : 24 ≤ data.length := Nat.le_of_not_lt hlen
    have hconv : st'.k.conv = st.k.conv := by
      obtain ⟨b, hp, q, heq, -⟩ := h.k
      rw [heq]
    have hshape : shiftIn c e (n + 1) data =
        patchHeader (shiftHeader c e (readHeader data)).sn (shiftHeader c e (readHeader data)).una data ++
        ((data.drop IKCP_OVERHEAD).take (readHeader data).length.toNat ++
          shiftIn c e n ((data.drop IKCP_OVERHEAD).drop (readHeader data).length.toNat)) := by
      rw [shiftIn, if_neg hlen]
    have hread : readHeader (shiftIn c e (n + 1) data) = shiftHeader c e (readHeader data) := by
      rw [hshape, readHeader_patch _ _ h24]
      rfl
    have hbody : (shiftIn c e (n + 1) data).drop IKCP_OVERHEAD =
        (data.drop IKCP_OVERHEAD).take (readHeader data).length.toNat ++
          shiftIn c e n ((data.drop IKCP_OVERHEAD).drop (readHeader data).length.toNat) := by
      rw [hshape, List.drop_left' (by rw [patchHeader_length _ _ h24]; rfl)]
    have hl : (shiftHeader c e (readHeader data)).length = (readHeader data).length := rfl
    dsimp only
    rw [hread, hbody, hl]
    refine Go.rel_ite ?_ (fun _ => ⟨h, rfl⟩) fun _ => Go.rel_ite ?_ (fun _ => ⟨h, rfl⟩) fun hshort =>
      Go.rel_ite Iff.rfl (fun _ => ⟨h, rfl⟩) fun _ => ?_
    · rw [hconv]
      rfl
    · simp only [List.length_append, List.length_take, shiftIn_length, List.length_drop]
      omega
    · have htake : ((data.drop IKCP_OVERHEAD).take (readHeader data).length.toNat).length =
          (readHeader data).length.toNat := by
        rw [List.length_take]
        omega
      rw [List.take_left' htake, List.drop_left' htake]
      exact (inputSeg_shift pkt (readHeader data) _ h).bind fun _ _ h' => ih _ h'

end KcpGo.L2
