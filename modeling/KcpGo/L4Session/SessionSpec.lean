import KcpGo.L2Machine.FecSizes
import KcpGo.L3Protocol.Packets
import KcpGo.L4Session.Session

/-!
# Every call on a session returns

`Session.Inv` says how the sizes of the layers fit together: the control block
sends packets that leave room for the headers and the tag, the FEC encoder
collects packets within the capacity of its slices, and the requests in the
queue are such packets behind their reserved bytes.

`step_ok`: from such a state every call returns in such a state, with
datagrams of at most `maxPacketSize` bytes, when `SetMtu` does not overflow
and what is received fits a buffer.
-/
namespace KcpGo.L4

open KcpGo.L1 KcpGo.L2

/-- What the documentation of the libraries promises. -/
structure Documented (lib : Lib) : Prop where
  makes : lib.Makes
  total : lib.Total
  sized : lib.Sized

def Block.Lawful : Block → Prop
  | .aead a => a.Lawful
  | _ => True

/-- A request as `output` and `SendOOB` make it: `hs` reserved bytes, then a
packet of the control block or a conversation id and a payload. -/
structure Queued (hs ov : Nat) (conv : UInt32) (fec : Bool) (r : SendRequest) : Prop where
  lower : hs ≤ r.buffer.length
  upper : r.buffer.length + ov ≤ maxPacketSize
  kcp : r.oob = false → IKCP_OVERHEAD ≤ (r.buffer.drop hs).length ∧ Carries (Speaks conv) (r.buffer.drop hs)
  oob : r.oob = true → fec = true ∧ ∃ payload, r.buffer.drop hs = LE.put 4 conv.toNat ++ payload

namespace Session

/-- What the headers and the tag leave for a packet of the control block. -/
def limit (s : Session) : Nat := maxPacketSize - (s.headerSize + s.block.overhead)

structure Inv (lib : Lib) (s : Session) : Prop where
  block : s.block.Lawful
  header : s.headerSize = s.block.headerSize + if s.fecEncoder.isSome then fecHeaderSizePlus2 else 0
  kcp : Sendable s.limit s.kcp
  dec : ∀ dec, s.fecDecoder = some dec → FecDecoder.Inv lib dec
  enc : ∀ enc, s.fecEncoder = some enc →
    enc.Sound s.block.headerSize (s.headerSize + IKCP_OVERHEAD) (maxPacketSize - s.block.overhead)
  queue : ∀ r ∈ s.postQueue, Queued s.headerSize s.block.overhead s.kcp.conv s.fecEncoder.isSome r

section
variable {lib : Lib} {s : Session}

theorem Inv.limit_le (h : Inv lib s) : s.limit + s.headerSize + s.block.overhead = maxPacketSize := by
  have h24 := h.kcp.overhead_le
  unfold limit IKCP_OVERHEAD at *
  omega

theorem Inv.small (h : Inv lib s) : s.limit ≤ maxPacketSize := by
  have := h.limit_le
  omega

/-! ## Output -/

theorem Inv.push (h : Inv lib s) {r : SendRequest}
    (hr : Queued s.headerSize s.block.overhead s.kcp.conv s.fecEncoder.isSome r) : Inv lib (s.push r) := by
  unfold Session.push
  split
  · refine { h with queue := fun x hx => ?_ }
    rcases List.mem_append.mp hx with hx | hx
    · exact h.queue x hx
    · rw [List.mem_singleton.mp hx]
      exact hr
  · exact h

/-- A packet for the network. -/
def Sends (s : Session) (p : Bytes) : Prop := p.length ≤ s.limit ∧ Carries (Speaks s.kcp.conv) p

theorem output_ok (h : Inv lib s) {p : Bytes} (hp : s.Sends p) : ∃ s', s.output p = .ok s' ∧ Inv lib s' ∧
    s'.limit = s.limit ∧ s'.kcp = s.kcp := by
  have hlim := h.limit_le
  have hle := hp.1
  unfold output
  split
  · exact ⟨s, rfl, h, rfl, rfl⟩
  rename_i h24
  rw [if_neg (by omega)]
  split
  · exact ⟨s, rfl, h, rfl, rfl⟩
  · have hlen : (List.replicate s.headerSize (0 : UInt8)).length = s.headerSize := List.length_replicate
    refine ⟨_, rfl, h.push ⟨?_, ?_, fun _ => ?_, by simp⟩, ?_, ?_⟩
    · rw [List.length_append, hlen]
      exact Nat.le_add_right _ _
    · rw [List.length_append, hlen]
      omega
    · dsimp only
      rw [List.drop_left' hlen]
      exact ⟨Nat.not_lt.mp h24, hp.2⟩
    · unfold Session.push
      split <;> rfl
    · unfold Session.push
      split <;> rfl

theorem outputs_ok (h : Inv lib s) {out : List Bytes} (hp : ∀ p ∈ out, s.Sends p) :
    ∃ s', out.foldlM output s = .ok s' ∧ Inv lib s' := by
  induction out generalizing s with
  | nil => exact ⟨s, rfl, h⟩
  | cons p out ih =>
    obtain ⟨s₁, h1, hinv, hlim, hkcp⟩ := output_ok h (hp p List.mem_cons_self)
    obtain ⟨s', hs', hinv'⟩ := ih hinv fun q hq => by
      unfold Sends
      rw [hlim, hkcp]
      exact hp q (List.mem_cons_of_mem _ hq)
    exact ⟨s', by rw [List.foldlM_cons, h1]; exact hs', hinv'⟩

/-- A step of the control block and the packets it puts out. -/
theorem Inv.kcpStep (h : Inv lib s) {op : Op} (hop : ∀ m, op = .setMtu m → m ≤ s.limit) {k : KCP} {o : Out}
    (hs : L2.step s.kcp op = .ok (k, o)) : Inv lib { s with kcp := k } ∧ ∀ p ∈ o.pkts, Sends { s with kcp := k } p := by
  obtain ⟨hk, hp⟩ := h.kcp.step (Nat.le_trans h.small (by decide)) hop hs
  have hconv := step_conv hs
  refine ⟨⟨h.block, h.header, hk, h.dec, h.enc, ?_⟩, fun p hm => ?_⟩
  · intro r hr
    dsimp only
    rw [hconv]
    exact h.queue r hr
  · obtain ⟨h1, h2⟩ := hp p hm
    refine ⟨h1, ?_⟩
    dsimp only
    rw [hconv]
    exact h2

theorem flush_ok (h : Inv lib s) (ft : FlushType) (clk : Clock) : ∃ s', s.flush ft clk = .ok s' ∧ Inv lib s' := by
  obtain ⟨⟨k, out, nx⟩, hf⟩ := KCP.flush_ok h.kcp.roomy ft clk
  have hstep : L2.step s.kcp (.flush ft clk) = .ok (k, ⟨nx.toNat, [], out⟩) := by
    rw [L2.step, hf]
    rfl
  obtain ⟨hinv, hp⟩ := h.kcpStep (fun m hm => by cases hm) hstep
  obtain ⟨s', hs', hinv'⟩ := outputs_ok hinv hp
  exact ⟨s', by rw [flush, hf]; exact hs', hinv'⟩

theorem kcpIn_ok (h : Inv lib s) {data : Bytes} (hd : data.length ≤ maxPacketSize) (pkt : PacketType) (clk : Clock) :
    ∃ s', s.kcpIn data pkt clk = .ok s' ∧ Inv lib s' := by
  obtain ⟨⟨k, r, out⟩, hf⟩ := KCP.input_ok h.kcp.roomy h.kcp.mss hd pkt s.ackNoDelay clk
  have hstep : L2.step s.kcp (.input data pkt s.ackNoDelay clk) = .ok (k, ⟨r, [], out⟩) := by
    rw [L2.step, hf]
    rfl
  obtain ⟨hinv, hp⟩ := h.kcpStep (fun m hm => by cases hm) hstep
  obtain ⟨s', hs', hinv'⟩ := outputs_ok hinv hp
  exact ⟨s', by rw [kcpIn, hf]; exact hs', hinv'⟩

theorem sendOOB_ok (h : Inv lib s) (data : Bytes) : ∃ s', s.sendOOB data = .ok s' ∧ Inv lib s' := by
  have hlim := h.limit_le
  have hmtu := h.kcp.mtu
  unfold sendOOB
  split
  · exact ⟨s, rfl, h⟩
  rename_i hfec
  split
  · exact ⟨s, rfl, h⟩
  rename_i hfit
  rw [if_neg (by omega)]
  split
  · exact ⟨s, rfl, h⟩
  · have hlen : (List.replicate s.headerSize (0 : UInt8)).length = s.headerSize := List.length_replicate
    refine ⟨_, rfl, h.push ⟨?_, ?_, by simp, fun _ => ⟨?_, data, ?_⟩⟩⟩
    · rw [List.length_append, List.length_append, hlen]
      omega
    · rw [List.length_append, List.length_append, hlen, LE.put_length]
      unfold convSize at hfit
      omega
    · cases he : s.fecEncoder with
      | none => exact absurd (by rw [he]; rfl) hfec
      | some enc => rfl
    · dsimp only
      rw [List.append_assoc, List.drop_left' hlen]

/-! ## Input -/

theorem inputRecovered_ok (h : Inv lib s) (clks : Nat → Clock) {rs : List Bytes}
    (hr : ∀ r ∈ rs, r.length ≤ maxPacketSize) :
    ∃ s' got, s.inputRecovered clks rs = .ok (s', got) ∧ Inv lib s' := by
  induction rs generalizing s clks with
  | nil => exact ⟨s, [], rfl, h⟩
  | cons r rs ih =>
    have hrest : ∀ x ∈ rs, x.length ≤ maxPacketSize := fun x hx => hr x (List.mem_cons_of_mem _ hx)
    rw [inputRecovered]
    split
    · exact ih h clks hrest
    · rename_i b hb
      have hlen : (b.drop 2).length ≤ maxPacketSize := by
        have := hr r List.mem_cons_self
        unfold cut at hb
        dsimp only at hb
        split at hb
        · cases hb
          rw [List.length_drop, List.length_take]
          omega
        · cases hb
      obtain ⟨s₁, h1, hinv⟩ := kcpIn_ok h hlen .fec (clks 0)
      obtain ⟨s', got, h2, hinv'⟩ := ih hinv (fun i => clks (i + 1)) hrest
      rw [h1, Go.ok_bind, h2]
      exact ⟨_, _, rfl, hinv'⟩

theorem inputData_ok (h : Inv lib s) {f : Bytes} (hf : f.length ≤ maxPacketSize) (clk : Clock) :
    ∃ s' got, s.inputData f clk = .ok (s', got) ∧ Inv lib s' := by
  unfold inputData
  split
  · obtain ⟨s', hs', hinv⟩ := @kcpIn_ok lib s h (f.drop fecHeaderSizePlus2)
      (by rw [List.length_drop]; omega) .regular clk
    rw [hs']
    exact ⟨_, _, rfl, hinv⟩
  · exact ⟨_, _, rfl, h⟩

theorem Inv.setDec (h : Inv lib s) {dec : FecDecoder} (hd : FecDecoder.Inv lib dec) :
    Inv lib { s with fecDecoder := some dec } :=
  { h with dec := by rintro _ ⟨⟩; exact hd }

variable (hlib : Documented lib)
include hlib

/-- The session has a decoder, or gets one. -/
theorem decoder_ok (h : Inv lib s) : ∃ dec, s.fecDecoder.or (newFECDecoder lib 1 1) = some dec ∧
    FecDecoder.Inv lib dec := by
  cases hd : s.fecDecoder with
  | some dec => exact ⟨dec, rfl, h.dec dec hd⟩
  | none =>
    obtain ⟨c, hc⟩ := hlib.makes 1 1 (by decide) (by decide) (by decide)
    obtain ⟨dec, hnew⟩ : ∃ dec, newFECDecoder lib 1 1 = some dec := by
      rw [newFECDecoder, if_neg (by decide), if_neg (by decide), hc]
      exact ⟨_, rfl⟩
    exact ⟨dec, hnew, (FecDecoder.newFECDecoder_inv hnew).1⟩

theorem fecInput_ok (h : Inv lib s) {f : Bytes} (hf : f.length ≤ maxPacketSize) (clks : Nat → Clock) :
    ∃ s' got, s.fecInput lib f clks = .ok (s', got) ∧ Inv lib s' := by
  unfold fecInput
  split
  · exact ⟨s, _, rfl, h⟩
  rename_i hmin
  have hmin : fecHeaderSizePlus2 ≤ f.length := Nat.not_lt.mp hmin
  obtain ⟨dec, hdec, hinv⟩ := decoder_ok hlib h
  rw [hdec]
  obtain ⟨s₁, got, h1, hinv₁⟩ := inputData_ok (h.setDec hinv) hf (clks 0)
  obtain ⟨⟨dec', rs⟩, h2⟩ := FecDecoder.decode_ok hinv hlib.total hmin hf
  have hdec' := FecDecoder.decode_inv hlib.makes hmin h2 hinv
  obtain ⟨s₂, got', h3, hinv₂⟩ := inputRecovered_ok (hinv₁.setDec hdec') (fun i => clks (i + 1))
    (FecDecoder.recovered_le hinv hlib.sized hmin h2)
  dsimp only
  rw [h1, Go.ok_bind]
  dsimp only
  rw [h2, Go.ok_bind]
  dsimp only
  rw [h3]
  exact ⟨_, _, rfl, hinv₂⟩

/-- The packet reaches one of the components. -/
theorem kcpInput_ok (h : Inv lib s) {data : Bytes} (hmin : minPacketSize ≤ data.length)
    (hd : data.length ≤ maxPacketSize)
    (clks : Nat → Clock) : ∃ s' got, s.kcpInput lib data clks = .ok (s', got) ∧ Inv lib s' := by
  have h12 : 12 ≤ data.length := hmin
  unfold kcpInput
  rw [if_neg (by omega)]
  split
  · exact fecInput_ok hlib h hd clks
  split
  · split
    · rw [if_neg (by unfold fecHeaderSizePlus2 convSize; omega)]
      exact ⟨s, _, rfl, h⟩
    · exact ⟨s, _, rfl, h⟩
  · obtain ⟨s', hs', hinv⟩ := kcpIn_ok h hd .regular (clks 0)
    rw [hs']
    exact ⟨_, _, rfl, hinv⟩

omit hlib in
/-- Decryption returns, with nothing longer than it got. -/
theorem unframe_ok {block : Block} (hb : block.Lawful) (data : Bytes) :
    ∃ r, unframe block data = .ok r ∧ ∀ p, r = some p → p.length ≤ data.length := by
  cases block with
  | nil => exact ⟨_, rfl, by rintro p ⟨⟩; exact Nat.le_refl _⟩
  | aead a =>
    unfold unframe
    dsimp only
    split
    · exact ⟨_, rfl, by rintro p ⟨⟩⟩
    · refine ⟨_, rfl, fun p hp => ?_⟩
      have := hb.shrinks _ _ p hp
      rw [List.length_drop] at this
      omega
  | crypt c =>
    unfold unframe
    dsimp only
    split
    · exact ⟨_, rfl, by rintro p ⟨⟩⟩
    rename_i hlen
    obtain ⟨q, hq, hql⟩ := c.decrypt_ok data
    rw [hq, Go.ok_bind]
    have hsize : (q.drop nonceSize).length = data.length - 16 := by
      rw [List.length_drop, hql]
      rfl
    unfold cryptHeaderSize nonceSize crcSize at hlen
    rw [if_neg (by unfold crcSize; omega)]
    split
    · exact ⟨_, rfl, by rintro p ⟨⟩⟩
    · refine ⟨_, rfl, ?_⟩
      rintro p ⟨⟩
      rw [List.length_drop, hsize]
      omega

theorem packetInput_ok (h : Inv lib s) {data : Bytes} (hd : data.length ≤ maxPacketSize) (clks : Nat → Clock) :
    ∃ s' got, s.packetInput lib data clks = .ok (s', got) ∧ Inv lib s' := by
  obtain ⟨r, hr, hle⟩ := unframe_ok h.block data
  unfold packetInput
  rw [hr, Go.ok_bind]
  cases r with
  | none => exact ⟨s, _, rfl, h⟩
  | some p =>
    dsimp only
    split
    · exact ⟨s, _, rfl, h⟩
    · rename_i hmin
      exact kcpInput_ok hlib h (Nat.not_lt.mp hmin) (Nat.le_trans (hle p rfl) hd) clks

end

section
variable {lib : Lib} {s : Session}

/-! ## Reading and writing -/

theorem Inv.setKcp (h : Inv lib s) (op : Op) (hop : ∀ m, op = .setMtu m → m ≤ s.limit) {k : KCP} {o : Out}
    (hs : L2.step s.kcp op = .ok (k, o)) : Inv lib { s with kcp := k } := (h.kcpStep hop hs).1

theorem Inv.send (h : Inv lib s) (b : Bytes) : ∃ k r, s.kcp.send b = .ok (k, r) ∧ Inv lib { s with kcp := k } := by
  have hmss := h.kcp.mss_le
  have hsmall := h.small
  obtain ⟨⟨k, r⟩, hk⟩ := KCP.send_ok h.kcp.mss (by omega) h.kcp.snd.queue b
  refine ⟨k, r, hk, h.setKcp (.send b) (fun m hm => by cases hm) (o := ⟨r, [], []⟩) ?_⟩
  rw [L2.step, hk]
  rfl

theorem sendPieces_ok (n : Nat) : ∀ {s : Session}, Inv lib s → ∀ b : Bytes,
    ∃ k, sendPieces n s.kcp b = .ok k ∧ Inv lib { s with kcp := k } := by
  induction n with
  | zero => exact fun h b => ⟨_, rfl, h⟩
  | succ n ih =>
    intro s h b
    rw [sendPieces]
    split
    · obtain ⟨k, r, hk, hinv⟩ := h.send b
      rw [hk]
      exact ⟨k, rfl, hinv⟩
    · obtain ⟨k, r, hk, hinv⟩ := h.send (b.take s.kcp.mss.toNat)
      rw [hk]
      exact ih hinv _

theorem sendAll_ok (v : List Bytes) : ∀ {s : Session}, Inv lib s →
    ∃ k, v.foldlM (fun k b => sendPieces (b.length + 1) k b) s.kcp = .ok k ∧ Inv lib { s with kcp := k } := by
  induction v with
  | nil => exact fun h => ⟨_, rfl, h⟩
  | cons b v ih =>
    intro s h
    obtain ⟨k, hk, hinv⟩ := sendPieces_ok (b.length + 1) h b
    obtain ⟨k', hk', hinv'⟩ := ih hinv
    exact ⟨k', by rw [List.foldlM_cons, hk]; exact hk', hinv'⟩

theorem writeBuffersLocked_ok (h : Inv lib s) (v : List Bytes) (clk : Clock) :
    ∃ s' n, s.writeBuffersLocked v clk = .ok (s', n) ∧ Inv lib s' := by
  unfold writeBuffersLocked
  split
  · exact ⟨s, _, rfl, h⟩
  obtain ⟨k, hk, hinv⟩ := sendAll_ok v h
  rw [hk, Go.ok_bind]
  dsimp only
  split
  · obtain ⟨s', hs', hinv'⟩ := flush_ok hinv .full clk
    rw [hs']
    exact ⟨_, _, rfl, hinv'⟩
  · exact ⟨_, _, rfl, hinv⟩

theorem writeBuffers_ok (h : Inv lib s) (v : List Bytes) (clk : Clock) :
    ∃ s' n, s.writeBuffers v clk = .ok (s', n) ∧ Inv lib s' := by
  unfold writeBuffers
  split
  · exact ⟨s, _, rfl, h⟩
  · exact writeBuffersLocked_ok h v clk

theorem Inv.recv (h : Inv lib s) (n : Nat) : ∃ k r d, s.kcp.recv n = .ok (k, r, d) ∧ Inv lib { s with kcp := k } := by
  obtain ⟨⟨k, r, d⟩, hk⟩ := s.kcp.recv_ok n
  refine ⟨k, r, d, hk, h.setKcp (.recv n) (fun m hm => by cases hm) (o := ⟨r, d, []⟩) ?_⟩
  rw [L2.step, hk]
  rfl

theorem readLocked_ok (h : Inv lib s) (n : Nat) : ∃ s' d, s.readLocked n = .ok (s', d) ∧ Inv lib s' := by
  unfold readLocked
  split
  · exact ⟨_, _, rfl, { h with }⟩
  split
  · exact ⟨_, _, rfl, h⟩
  split
  · obtain ⟨k, r, d, hk, hinv⟩ := h.recv n
    rw [hk]
    exact ⟨_, _, rfl, hinv⟩
  · obtain ⟨k, r, d, hk, hinv⟩ := h.recv s.kcp.peekSize.toNat
    dsimp only
    rw [hk]
    exact ⟨_, _, rfl, { hinv with }⟩

theorem update_ok (h : Inv lib s) (clk : Clock) : ∃ s', s.update clk = .ok s' ∧ Inv lib s' := by
  unfold update
  split
  · exact ⟨s, rfl, h⟩
  · exact flush_ok h .full clk

theorem close_ok (h : Inv lib s) (clk : Clock) : ∃ s', s.close clk = .ok s' ∧ Inv lib s' := by
  unfold close
  split
  · exact ⟨s, rfl, h⟩
  · obtain ⟨s', hs', hinv⟩ := flush_ok h .full clk
    rw [hs']
    exact ⟨_, rfl, { hinv with queue := by simp }⟩

/-! ## Post-processing -/

theorem fillRand_length (n : Nat) (src : Bytes) : (fillRand n src).length = n := by
  simp [fillRand]

/-- Encryption returns when the tag still fits. -/
theorem frame_ok {block : Block} (hb : block.Lawful) {buf : Bytes} (rnd : Bytes) (hlow : block.headerSize ≤ buf.length)
    (hhigh : buf.length + block.overhead ≤ maxPacketSize) :
    ∃ b, frame block rnd buf = .ok b ∧ buf.length ≤ b.length ∧ b.length ≤ maxPacketSize := by
  cases block with
  | nil => exact ⟨buf, rfl, Nat.le_refl _, hhigh⟩
  | aead a =>
    have hlow : a.nonceSize ≤ buf.length := hlow
    have hhigh : buf.length + a.overhead ≤ maxPacketSize := hhigh
    have hplain : (buf.drop a.nonceSize).length = buf.length - a.nonceSize := List.length_drop
    have h1 := hb.grows (fillRand a.nonceSize rnd) (buf.drop a.nonceSize)
    have h2 := hb.keeps (fillRand a.nonceSize rnd) (buf.drop a.nonceSize)
    unfold frame
    dsimp only
    rw [if_neg (by omega), if_neg (by omega)]
    refine ⟨_, rfl, ?_, ?_⟩ <;>
    · rw [List.length_append, fillRand_length]
      omega
  | crypt c =>
    have hlow : cryptHeaderSize ≤ buf.length := hlow
    have hhigh : buf.length ≤ maxPacketSize := hhigh
    unfold frame
    dsimp only
    rw [if_neg (by omega)]
    obtain ⟨b, hb, hlen, -⟩ := c.decrypt_encrypt
      (fillRand nonceSize rnd ++ LE.put 4 (crc32 (buf.drop cryptHeaderSize)).toNat ++ buf.drop cryptHeaderSize)
    have hsame : b.length = buf.length := by
      rw [hlen, List.length_append, List.length_append, fillRand_length, LE.put_length, List.length_drop]
      unfold cryptHeaderSize nonceSize crcSize at *
      omega
    exact ⟨b, hb, by omega, by omega⟩

theorem frameAll_ok {block : Block} (hb : block.Lawful) {ecc : List Bytes} : ∀ (rnd : Nat → Bytes),
    (∀ x ∈ ecc, block.headerSize ≤ x.length ∧ x.length + block.overhead ≤ maxPacketSize) →
    ∃ out, frameAll block rnd ecc = .ok out ∧
      List.Forall₂ (fun y x : Bytes => x.length ≤ y.length ∧ y.length ≤ maxPacketSize) out ecc := by
  induction ecc with
  | nil => exact fun _ _ => ⟨[], rfl, .nil⟩
  | cons x ecc ih =>
    intro rnd hx
    obtain ⟨h1, h2⟩ := hx x List.mem_cons_self
    obtain ⟨y, hy, hlow, hhigh⟩ := frame_ok hb (rnd 0) h1 h2
    obtain ⟨out, hout, hrel⟩ := ih (fun k => rnd (k + 1)) fun z hz => hx z (List.mem_cons_of_mem _ hz)
    refine ⟨y :: out, ?_, .cons ⟨hlow, hhigh⟩ hrel⟩
    rw [frameAll, hy, Go.ok_bind, hout]
    rfl

theorem store_ok {sl : Slice} {b : Bytes} (h : b.length ≤ sl.cap) :
    ∃ sl', store sl b = .ok sl' ∧ sl'.cap = sl.cap ∧ sl'.len = b.length := by
  obtain ⟨s₁, h1, hl1, hc1, -⟩ := sl.reslice_ok h
  obtain ⟨s₂, h2, hl2, hc2, -⟩ := @Slice.writeAt_ok s₁ 0 b (by omega)
  exact ⟨s₂, by rw [store, h1]; exact h2, hc2.trans hc1, hl2.trans hl1⟩

theorem storeParity_ok {off low lim : Nat} {enc : FecEncoder} (h : enc.Sound off low lim) {ecc : List Bytes}
    (hlen : ecc = [] ∨ ecc.length = enc.parityShards)
    (hecc : ∀ x ∈ ecc, off + 6 ≤ x.length ∧ x.length ≤ maxPacketSize) :
    ∃ enc', storeParity enc ecc = .ok enc' ∧ enc'.Sound off low lim := by
  unfold storeParity
  split
  · exact ⟨enc, rfl, h⟩
  rename_i hne
  have hpar : ecc.length = enc.parityShards := hlen.resolve_left hne
  have hdrop : (enc.shardCache.drop enc.dataShards).length = enc.parityShards := by
    rw [List.length_drop, h.cache]
    omega
  obtain ⟨ps, hps, hrel⟩ := Go.mapM_forall₂ (f := fun x : Slice × Bytes => store x.1 x.2)
    (Q := fun a b => a = b ∧ a.1.cap = maxPacketSize ∧ off + 6 ≤ a.2.length ∧ a.2.length ≤ maxPacketSize)
    (R := fun (sl : Slice) _ => sl.cap = maxPacketSize ∧ off + 6 ≤ sl.len)
    (l := (enc.shardCache.drop enc.dataShards).zip ecc) (m := (enc.shardCache.drop enc.dataShards).zip ecc)
    (List.forall₂_same.mpr fun x hx => by
      obtain ⟨hx1, hx2⟩ := List.of_mem_zip hx
      exact ⟨rfl, h.cap _ (List.mem_of_mem_drop hx1), hecc _ hx2⟩) (by
      rintro ⟨sl, b⟩ c ⟨rfl, hcap, hlo, hhi⟩
      obtain ⟨sl', hs, hc, hl⟩ := @store_ok sl b (by rw [hcap]; exact hhi)
      exact ⟨sl', hs, hc.trans hcap, by rw [hl]; exact hlo⟩)
  have hpsl : ps.length = enc.parityShards := by
    rw [hrel.length_eq, List.length_zip, hdrop, hpar, Nat.min_self]
  have hmem : ∀ sl ∈ ps, sl.cap = maxPacketSize ∧ off + 6 ≤ sl.len :=
    ((List.forall₂_and_left _ _).mp (hrel.imp fun a b hab => ⟨hab, hab⟩)).1
  rw [hps, Go.ok_bind]
  exact ⟨_, rfl, h.scribble hpsl hmem⟩

/-- A request with its FEC header, if there is FEC. -/
def Wrapped (off : Nat) (fec : Bool) (req : SendRequest) (buf : Bytes) : Prop :=
  if fec then ∃ (id : UInt32) (sz : Bytes), sz.length = 2 ∧
    buf = req.buffer.take off ++ fecHeader id (if req.oob then typeOOB else typeData) ++
      (sz ++ req.buffer.drop (off + 8))
  else buf = req.buffer

theorem Wrapped.length {off : Nat} {fec : Bool} {req : SendRequest} {buf : Bytes} (h : Wrapped off fec req buf)
    (hl : off + (if fec then 8 else 0) ≤ req.buffer.length) : buf.length = req.buffer.length := by
  unfold Wrapped at h
  cases fec with
  | false => exact congrArg List.length h
  | true =>
    obtain ⟨id, sz, hsz, rfl⟩ := h
    simp only [if_true] at hl
    simp only [List.length_append, fecHeader_length, List.length_take, List.length_drop, hsz]
    omega

/-- The parity packets of a session. -/
def IsParity (s : Session) (x : Bytes) : Prop :=
  FecEncoder.ParityPacket s.block.headerSize x ∧ s.headerSize + IKCP_OVERHEAD ≤ x.length ∧
    x.length + s.block.overhead ≤ maxPacketSize

/-- Stage 1 of `postProcess`. -/
theorem encodeFec_ok (h : Inv lib s) {req : SendRequest}
    (hq : Queued s.headerSize s.block.overhead s.kcp.conv s.fecEncoder.isSome req) (now : Int) : ∃ enc buf ecc,
    encodeFec s.fecEncoder req now = .ok (enc, buf, ecc) ∧ Wrapped s.block.headerSize s.fecEncoder.isSome req buf ∧
    (∀ x ∈ ecc, s.IsParity x) ∧ enc.isSome = s.fecEncoder.isSome ∧ (enc = none → ecc = []) ∧
    ∀ e, enc = some e → (ecc = [] ∨ ecc.length = e.parityShards) ∧
      e.Sound s.block.headerSize (s.headerSize + IKCP_OVERHEAD) (maxPacketSize - s.block.overhead) := by
  have hlim := h.limit_le
  cases he : s.fecEncoder with
  | none => exact ⟨none, req.buffer, [], rfl, rfl, by simp, rfl, fun _ => rfl, by rintro e ⟨⟩⟩
  | some e =>
    have hsound := h.enc e he
    have hhead : s.headerSize = s.block.headerSize + 8 := by
      have := h.header
      rw [he] at this
      exact this
    have hlow := hq.lower
    cases ho : req.oob with
    | true =>
      have hseal := FecEncoder.sealed_eq (by rw [hsound.payload, hsound.head]) 0xffffffff typeOOB req.buffer
      rw [hsound.head, FecEncoder.shardOf, hsound.payload] at hseal
      have henc : e.encodeOOB req.buffer = .ok (e.sealed 0xffffffff typeOOB req.buffer) :=
        if_neg (by rw [hsound.payload]; omega)
      refine ⟨some e, e.sealed 0xffffffff typeOOB req.buffer, [], ?_, ?_, by simp, rfl, by simp, ?_⟩
      · rw [encodeFec, if_pos ho, henc]
        rfl
      · refine ⟨0xffffffff, LE.put 2 (UInt16.ofNat (req.buffer.length - (s.block.headerSize + 6))).toNat,
          LE.put_length _ _, ?_⟩
        rw [if_pos ho]
        exact hseal
      · rintro _ ⟨⟩
        exact ⟨.inl rfl, hsound⟩
    | false =>
      obtain ⟨hmin, -⟩ := hq.kcp ho
      rw [List.length_drop] at hmin
      have hup := hq.upper
      obtain ⟨e', ps, henc, hsound', hsame, hnum⟩ := FecEncoder.encode_sound hsound
        (by unfold IKCP_OVERHEAD; omega) (by omega) (b := req.buffer) (by omega) (by omega) now maxFECEncodeLatency
      obtain ⟨hlen, hps⟩ := hnum.packets
      refine ⟨some e', req.buffer.take s.block.headerSize ++ fecHeader e.next typeData ++ e.shardOf req.buffer, ps,
        ?_, ?_, ?_, rfl, by simp, ?_⟩
      · rw [encodeFec, if_neg (by simp [ho]), henc]
        rfl
      · refine ⟨e.next, LE.put 2 (UInt16.ofNat (req.buffer.length - e.payloadOffset)).toNat, LE.put_length _ _, ?_⟩
        rw [if_neg (by simp [ho]), FecEncoder.shardOf, hsound.payload]
      · intro x hx
        obtain ⟨h1, h2, h3⟩ := hps x hx
        exact ⟨h1, h2, by omega⟩
      · rintro _ ⟨⟩
        exact ⟨by rw [hsame.par]; exact hlen, hsound'⟩

theorem poolCopy_ok {l : List Bytes} (h : ∀ b ∈ l, b.length ≤ maxPacketSize) : l.mapM poolCopy = .ok l := by
  have hmap := Go.mapM_ok (f := poolCopy) (g := id) (l := l) fun b hb => if_neg (Nat.not_lt.mpr (h b hb))
  rwa [List.map_id] at hmap

/-- What `postProcess` makes of a request: the packet, its copies and the
parity that follows, each encrypted. -/
structure Processed (s : Session) (req : SendRequest) (rnd : Nat → Bytes) (out : List Bytes) : Prop where
  made : ∃ buf b ecc ps, Wrapped s.block.headerSize s.fecEncoder.isSome req buf ∧ frame s.block (rnd 0) buf = .ok b ∧
    (∀ x ∈ ecc, s.IsParity x) ∧ frameAll s.block (fun k => rnd (k + 1)) ecc = .ok ps ∧
    out = b :: List.replicate s.dup.toNat b ++ ps
  short : ∀ d ∈ out, d.length ≤ maxPacketSize

theorem postProcess_spec (h : Inv lib s) {req : SendRequest} {q : List SendRequest} (hq : s.postQueue = req :: q)
    (rnd : Nat → Bytes) (now : Int) :
    ∃ s' out, s.postProcess rnd now = .ok (s', out) ∧ Inv lib s' ∧ Processed s req rnd out := by
  have hreq := h.queue req (by rw [hq]; exact List.mem_cons_self)
  obtain ⟨enc, buf, ecc, h1, hwrap, hpar, hsome, hnone, hsound⟩ := encodeFec_ok h hreq now
  have hhead := h.header
  have hlen : buf.length = req.buffer.length := by
    refine hwrap.length ?_
    have := hreq.lower
    unfold fecHeaderSizePlus2 at hhead
    omega
  have hlow := hreq.lower
  have hup := hreq.upper
  obtain ⟨b, h2, hb1, hb2⟩ := @frame_ok s.block h.block buf (rnd 0) (by omega) (by omega)
  obtain ⟨ps, h3, hrel⟩ := @frameAll_ok s.block h.block ecc (fun k => rnd (k + 1)) fun x hx => by
    obtain ⟨-, hx1, hx2⟩ := hpar x hx
    exact ⟨by omega, hx2⟩
  have hps : ∀ y ∈ ps, s.headerSize + IKCP_OVERHEAD ≤ y.length ∧ y.length ≤ maxPacketSize := by
    intro y hy
    obtain ⟨i, hi, rfl⟩ := List.mem_iff_getElem.mp hy
    have hi' : i < ecc.length := hrel.length_eq ▸ hi
    obtain ⟨hle, hmax⟩ := hrel.get hi hi'
    have := (hpar _ (List.getElem_mem hi')).2.1
    simp only [List.get_eq_getElem] at hle hmax
    exact ⟨by omega, hmax⟩
  obtain ⟨enc', h4, hsome', hsound'⟩ : ∃ enc', storeFec enc ps = .ok enc' ∧ enc'.isSome = s.fecEncoder.isSome ∧
      ∀ e, enc' = some e → e.Sound s.block.headerSize (s.headerSize + IKCP_OVERHEAD)
        (maxPacketSize - s.block.overhead) := by
    cases henc : enc with
    | none =>
      rw [henc] at hsome
      exact ⟨none, rfl, hsome, by rintro e ⟨⟩⟩
    | some e =>
      obtain ⟨hl, hs⟩ := hsound e henc
      have hlen' : ps = [] ∨ ps.length = e.parityShards := by
        rcases hl with rfl | hl
        · exact .inl (List.forall₂_nil_right_iff.mp hrel)
        · exact .inr (hrel.length_eq.trans hl)
      obtain ⟨e', he', hs'⟩ := storeParity_ok hs hlen' fun y hy => by
        have := hps y hy
        unfold IKCP_OVERHEAD at this
        exact ⟨by omega, this.2⟩
      refine ⟨some e', by rw [storeFec, he']; rfl, by rw [← hsome, henc]; rfl, ?_⟩
      rintro _ ⟨⟩
      exact hs'
  have hdup : ∀ x ∈ List.replicate s.dup.toNat b, x.length ≤ maxPacketSize := by
    intro x hx
    rw [List.eq_of_mem_replicate hx]
    exact hb2
  refine ⟨{ s with postQueue := q, fecEncoder := enc' }, b :: List.replicate s.dup.toNat b ++ ps, ?_, ?_,
    ⟨buf, b, ecc, ps, hwrap, h2, hpar, h3, rfl⟩, ?_⟩
  · rw [postProcess, hq]
    dsimp only
    rw [h1, Go.ok_bind]
    dsimp only
    rw [h2, Go.ok_bind, h3, Go.ok_bind, h4, Go.ok_bind, poolCopy_ok hdup, Go.ok_bind,
      poolCopy_ok fun y hy => (hps y hy).2]
    rfl
  · refine ⟨h.block, ?_, h.kcp, h.dec, hsound', fun r hr => ?_⟩
    · dsimp only
      rw [hsome']
      exact hhead
    · dsimp only
      rw [hsome']
      exact h.queue r (by rw [hq]; exact List.mem_cons_of_mem _ hr)
  · intro d hd
    rcases List.mem_append.mp hd with hd | hd
    · rcases List.mem_cons.mp hd with rfl | hd
      · exact hb2
      · exact hdup d hd
    · exact (hps d hd).2

theorem postProcess_ok (h : Inv lib s) (rnd : Nat → Bytes) (now : Int) :
    ∃ s' out, s.postProcess rnd now = .ok (s', out) ∧
    Inv lib s' ∧ ∀ d ∈ out, d.length ≤ maxPacketSize := by
  cases hq : s.postQueue with
  | nil => exact ⟨s, [], by rw [postProcess, hq], h, by simp⟩
  | cons req q =>
    obtain ⟨s', out, hs, hinv, hp⟩ := postProcess_spec h hq rnd now
    exact ⟨s', out, hs, hinv, hp.short⟩

/-! ## The MTU -/

/-- The difference that `SetMtu` passes on is an `int`. -/
def MtuFits (s : Session) (mtu : Int64) : Prop :=
  -2 ^ 63 ≤ min 1472 mtu.toInt - s.headerSize - s.block.overhead

instance (s : Session) (mtu : Int64) : Decidable (s.MtuFits mtu) := inferInstanceAs (Decidable (_ ≤ _))

theorem toInt_min (a b : Int64) : (min a b).toInt = min a.toInt b.toInt := by
  show (if a ≤ b then a else b).toInt = _
  split
  · rename_i h
    rw [Int.min_eq_left (Int64.le_iff_toInt_le.mp h)]
  · rename_i h
    rw [Int.min_eq_right (Int.le_of_not_le (mt Int64.le_iff_toInt_le.mpr h))]

/-- Without overflow the control block gets what it should. -/
theorem mtu_toInt {mtu : Int64} (hm : s.MtuFits mtu) (hsmall : s.headerSize + s.block.overhead < 2 ^ 63) :
    (min 1472 mtu - Int64.ofNat s.headerSize - Int64.ofNat s.block.overhead).toInt =
      min 1472 mtu.toInt - s.headerSize - s.block.overhead := by
  have h1472 : (1472 : Int64).toInt = 1472 := rfl
  unfold MtuFits at hm
  rw [Int64.toInt_sub, Int64.toInt_sub, toInt_min, h1472, Int64.toInt_ofNat_of_lt (by omega),
    Int64.toInt_ofNat_of_lt (by omega)]
  have hle : min 1472 mtu.toInt ≤ 1472 := Int.min_le_left _ _
  generalize min 1472 mtu.toInt = m at hm hle ⊢
  have h1 : (m - s.headerSize).bmod (2 ^ 64) = m - s.headerSize := Int.bmod_eq_of_le (by omega) (by omega)
  rw [h1]
  exact Int.bmod_eq_of_le (by omega) (by omega)

theorem setMtu_ok (h : Inv lib s) {mtu : Int64} (hm : s.MtuFits mtu) :
    ∃ s' b, s.setMtu mtu = .ok (s', b) ∧ Inv lib s' := by
  have hlim := h.limit_le
  have hle : min 1472 mtu.toInt - s.headerSize - s.block.overhead ≤ s.limit := by
    unfold maxPacketSize at hlim
    omega
  have hmax := h.small
  obtain ⟨k, r, hk, -⟩ := @KCP.setMtu_ok s.kcp (min 1472 mtu.toInt - s.headerSize - s.block.overhead)
    (by unfold poolMtu IKCP_OVERHEAD; omega)
  refine ⟨{ s with kcp := k }, decide (r = 0), ?_, h.setKcp (.setMtu (min 1472 mtu.toInt - s.headerSize -
    s.block.overhead)) ?_ (o := ⟨r, [], []⟩) ?_⟩
  · unfold setMtu
    dsimp only
    rw [mtu_toInt hm (by unfold maxPacketSize at hlim; omega), hk]
    rfl
  · rintro m ⟨⟩
    exact hle
  · rw [L2.step, hk]
    rfl

/-- The headers of a cipher that exists are not near the end of `int`. -/
theorem block_small (block : Block) : block.headerSize + block.overhead < 2 ^ 62 + 20 := by
  cases block with
  | nil => decide
  | aead a =>
    have := a.small
    show a.nonceSize + a.overhead < _
    omega
  | crypt c => exact (by decide : cryptHeaderSize + 0 < 2 ^ 62 + 20)

/-! ## A new session -/

/-- The session before its first `SetMtu`. -/
def blank (lib : Lib) (conv : UInt32) (ds ps : Nat) (block : Block) : Session where
  block := block
  kcp := newKCP conv
  fecDecoder := newFECDecoder lib ds ps
  fecEncoder := newFECEncoder lib.newCodec ds ps block.headerSize
  headerSize := block.headerSize + if (newFECEncoder lib.newCodec ds ps block.headerSize).isSome then
    fecHeaderSizePlus2 else 0
  input := []
  recvCap := maxPacketSize
  ackNoDelay := false
  writeDelay := false
  dup := 0
  callbackForOOB := false
  die := false
  postQueue := []

section
variable {conv : UInt32} {ds ps : Nat} {block : Block}

/-- What the headers leave of the default MTU; it depends on the
configuration only. -/
def firstMtu (lib : Lib) (ds ps : Nat) (block : Block) : Int :=
  1400 - (blank lib 0 ds ps block).headerSize - block.overhead

/-- The first `SetMtu` does not overflow and decides. -/
theorem new_eq (lib : Lib) (conv : UInt32) (ds ps : Nat) (block : Block) :
    ∃ k r, Session.new lib conv ds ps block =
        (if r = 0 then .ok { blank lib conv ds ps block with kcp := k } else .error (.explicit "Overhead too large")) ∧
      (newKCP conv).setMtu (firstMtu lib ds ps block) = .ok (k, r) ∧
      (r = 0 ↔ (IKCP_OVERHEAD : Int) < firstMtu lib ds ps block) := by
  have hsmall := block_small block
  have hhead : (blank lib conv ds ps block).headerSize ≤ block.headerSize + 8 := by
    unfold blank fecHeaderSizePlus2
    dsimp only
    split <;> omega
  have hover : (blank lib conv ds ps block).block.overhead = block.overhead := rfl
  have h1400 : (1400 : Int64).toInt = 1400 := rfl
  have hfirst : firstMtu lib ds ps block = 1400 - (blank lib conv ds ps block).headerSize - block.overhead := rfl
  have hfits : (blank lib conv ds ps block).MtuFits 1400 := by
    unfold MtuFits
    rw [h1400]
    omega
  have hmax : ((maxPacketSize : Nat) : Int) = 1472 := rfl
  obtain ⟨k, r, hk, hlow, hhigh⟩ := @KCP.setMtu_ok (newKCP conv) (firstMtu lib ds ps block)
    (by unfold poolMtu IKCP_OVERHEAD maxPacketSize; omega)
  have hset : (blank lib conv ds ps block).setMtu 1400 =
      .ok ({ blank lib conv ds ps block with kcp := k }, decide (r = 0)) := by
    unfold setMtu
    dsimp only
    rw [mtu_toInt hfits (by omega), h1400, Int.min_eq_right (by decide), hover, ← hfirst]
    show (newKCP conv).setMtu (firstMtu lib ds ps block) >>= _ = _
    rw [hk]
    rfl
  refine ⟨k, r, ?_, hk, fun h0 => ?_, fun hlt => (hhigh hlt).1⟩
  · show ((blank lib conv ds ps block).setMtu 1400 >>= _) = _
    rw [hset, Go.ok_bind]
    simp only [decide_eq_true_eq]
  · by_contra hle
    have := (hlow (Int.not_lt.mp hle)).2
    omega

/-- The configurations that `newUDPSession` accepts. -/
theorem new_ok_iff : (∃ s, Session.new lib conv ds ps block = .ok s) ↔
    (IKCP_OVERHEAD : Int) < firstMtu lib ds ps block := by
  obtain ⟨k, r, heq, -, hr⟩ := new_eq lib conv ds ps block
  rw [heq, ← hr]
  by_cases h0 : r = 0
  · simp [h0]
  · simp [h0]

theorem new_callback (h : Session.new lib conv ds ps block = .ok s) : s.callbackForOOB = false := by
  obtain ⟨k, r, heq, -, -⟩ := new_eq lib conv ds ps block
  rw [heq] at h
  split at h
  · cases h
    rfl
  · cases h

/-- **A new session.** -/
theorem new_inv (hl : lib.Sized) (hb : block.Lawful) (h : Session.new lib conv ds ps block = .ok s) :
    Inv lib s ∧ s.block = block ∧ s.kcp.conv = conv ∧ s.die = false := by
  have h24 := new_ok_iff.mp ⟨s, h⟩
  obtain ⟨k, r, heq, hk, hr⟩ := new_eq lib conv ds ps block
  rw [heq, if_pos (hr.mpr h24)] at h
  cases h
  have hfirst : firstMtu lib ds ps block = 1400 - (blank lib conv ds ps block).headerSize - block.overhead := rfl
  have hoverhead : ((IKCP_OVERHEAD : Nat) : Int) = 24 := rfl
  refine ⟨⟨hb, rfl, sendable_setMtu ?_ conv h24 ?_ hk, ?_, ?_, by simp [blank]⟩, rfl, ?_, rfl⟩
  · exact Nat.sub_le _ _
  · show _ ≤ ((maxPacketSize - ((blank lib conv ds ps block).headerSize + block.overhead) : Nat) : Int)
    unfold maxPacketSize
    omega
  · intro dec hdec
    exact (FecDecoder.newFECDecoder_inv hdec).1
  · intro e he
    refine FecEncoder.newFECEncoder_sound (hl _ _) ?_ he
    show block.headerSize + 6 ≤ maxPacketSize
    have : block.headerSize ≤ (blank lib conv ds ps block).headerSize := Nat.le_add_right _ _
    unfold maxPacketSize
    omega
  · have hstep : L2.step (newKCP conv) (.setMtu (firstMtu lib ds ps block)) = .ok (k, ⟨r, [], []⟩) := by
      rw [L2.step, hk]
      rfl
    exact step_conv hstep

end

/-! ## Every call -/

/-- A datagram fits the buffer it was read into, and the MTU asked for does
not overflow. -/
def Admissible (s : Session) : Call → Prop
  | .packetInput data _ => data.length ≤ maxPacketSize
  | .setMtu mtu => s.MtuFits mtu
  | _ => True

/-- **Every call returns**, and sends datagrams that fit. -/
theorem step_ok (hlib : Documented lib) (h : Inv lib s) {call : Call} (hc : s.Admissible call) :
    ∃ s' o, s.step lib call = .ok (s', o) ∧ Inv lib s' ∧ ∀ d ∈ o.datagrams, d.length ≤ maxPacketSize := by
  cases call with
  | packetInput data clks =>
    obtain ⟨s', got, hs, hinv⟩ := packetInput_ok hlib h hc clks
    exact ⟨s', _, by rw [step, hs]; rfl, hinv, by simp⟩
  | write v clk =>
    obtain ⟨s', n, hs, hinv⟩ := writeBuffers_ok h v clk
    exact ⟨s', _, by rw [step, hs]; rfl, hinv, by simp⟩
  | read n =>
    obtain ⟨s', d, hs, hinv⟩ := readLocked_ok h n
    exact ⟨s', _, by rw [step, hs]; rfl, hinv, by simp⟩
  | update clk =>
    obtain ⟨s', hs, hinv⟩ := update_ok h clk
    exact ⟨s', _, by rw [step, hs]; rfl, hinv, by simp⟩
  | sendOOB data =>
    obtain ⟨s', hs, hinv⟩ := sendOOB_ok h data
    exact ⟨s', _, by rw [step, hs]; rfl, hinv, by simp⟩
  | postProcess rnd now =>
    obtain ⟨s', out, hs, hinv, hout⟩ := postProcess_ok h rnd now
    exact ⟨s', _, by rw [step, hs]; rfl, hinv, hout⟩
  | close clk =>
    obtain ⟨s', hs, hinv⟩ := close_ok h clk
    exact ⟨s', _, by rw [step, hs]; rfl, hinv, by simp⟩
  | setMtu mtu =>
    obtain ⟨s', b, hs, hinv⟩ := setMtu_ok h hc
    exact ⟨s', _, by rw [step, hs]; rfl, hinv, by simp⟩
  | setStreamMode enable => exact ⟨_, _, rfl, h.setKcp (.setStream enable) (fun _ hm => by cases hm) rfl, by simp⟩
  | setWriteDelay delay => exact ⟨_, _, rfl, { h with }, by simp⟩
  | setACKNoDelay nodelay => exact ⟨_, _, rfl, { h with }, by simp⟩
  | setDUP dup => exact ⟨_, _, rfl, { h with }, by simp⟩
  | setOOBHandler => exact ⟨_, _, rfl, { h with }, by simp⟩
  | setWindowSize a b => exact ⟨_, _, rfl, h.setKcp (.wndSize a b) (fun _ hm => by cases hm) rfl, by simp⟩
  | setNoDelay a b c d => exact ⟨_, _, rfl, h.setKcp (.noDelay a b c d) (fun _ hm => by cases hm) rfl, by simp⟩
  | resetRTO clk => exact ⟨_, _, rfl, h.setKcp (.resetRTO clk) (fun _ hm => by cases hm) rfl, by simp⟩

end

end Session
end KcpGo.L4
