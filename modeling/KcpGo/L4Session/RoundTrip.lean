import KcpGo.L4Session.Eviction

/-!
# The pipeline round-trips

What `postProcess` puts on the wire, `packetInput` of a session or a listener
with the same cipher takes apart again.

* `unframe_frame`: decryption undoes encryption, for every cipher and nonce.
* `Sealed`: the four kinds of packets a session makes, as bytes.
* `Sealed.origin`, `Sealed.routes`: which conversation a listener reads from
  them, and which component of a session they reach.
* `pipeline_roundtrip`: the datagrams of every request, at every receiver.
-/
namespace KcpGo.L4

open KcpGo.L1 KcpGo.L2

/-- `Open` inverts `Seal`. -/
def Block.Inverts : Block → Prop
  | .aead a => a.Inverts
  | _ => True

namespace Session

/-! ## Encryption -/

theorem unframe_frame {block : Block} (hb : block.Inverts) {rnd buf b : Bytes} (h : frame block rnd buf = .ok b) :
    unframe block b = .ok (some (buf.drop block.headerSize)) := by
  cases block with
  | nil =>
    cases h
    rfl
  | aead a =>
    unfold frame at h
    dsimp only at h
    split at h
    · cases h
    split at h
    · cases h
    cases h
    have hnonce := fillRand_length a.nonceSize rnd
    have htag := hb.tagged (fillRand a.nonceSize rnd) (buf.drop a.nonceSize)
    unfold unframe
    dsimp only
    rw [if_neg (by rw [List.length_append, hnonce]; omega), List.take_left' hnonce, List.drop_left' hnonce,
      hb.opens _ _ hnonce]
    rfl
  | crypt c =>
    unfold frame at h
    dsimp only at h
    split at h
    · cases h
    obtain ⟨ct, henc, hlen, hdec⟩ := c.decrypt_encrypt
      (fillRand nonceSize rnd ++ LE.put 4 (crc32 (buf.drop cryptHeaderSize)).toNat ++ buf.drop cryptHeaderSize)
    rw [henc] at h
    cases h
    have hnonce := fillRand_length nonceSize rnd
    have hbody : (fillRand nonceSize rnd ++ LE.put 4 (crc32 (buf.drop cryptHeaderSize)).toNat ++
        buf.drop cryptHeaderSize).drop nonceSize =
        LE.put 4 (crc32 (buf.drop cryptHeaderSize)).toNat ++ buf.drop cryptHeaderSize := by
      rw [List.append_assoc, List.drop_left' hnonce]
    have hcrc := LE.u32_put [] (buf.drop cryptHeaderSize) (crc32 (buf.drop cryptHeaderSize)) 0 rfl
    rw [List.nil_append] at hcrc
    have hdrop : (LE.put 4 (crc32 (buf.drop cryptHeaderSize)).toNat ++ buf.drop cryptHeaderSize).drop crcSize =
        buf.drop cryptHeaderSize := List.drop_left' (LE.put_length _ _)
    unfold unframe
    dsimp only
    rw [if_neg ?_, hdec, Go.ok_bind]
    · rw [hbody, if_neg (by simp [crcSize]), hdrop, hcrc, if_neg (by simp)]
      rfl
    · rw [hlen, List.length_append, List.length_append, hnonce, LE.put_length]
      unfold cryptHeaderSize nonceSize crcSize
      omega

theorem frameAll_mem {block : Block} {ecc out : List Bytes} : ∀ {rnd : Nat → Bytes}, frameAll block rnd ecc = .ok out →
    ∀ {x : Bytes}, x ∈ out → ∃ y r, y ∈ ecc ∧ frame block r y = .ok x := by
  induction ecc generalizing out with
  | nil =>
    intro rnd h x hx
    cases h
    cases hx
  | cons y ecc ih =>
    intro rnd h x hx
    obtain ⟨b, hb, h⟩ := Go.bind_ok h
    obtain ⟨out', hout, h⟩ := Go.bind_ok h
    cases h
    rcases List.mem_cons.mp hx with rfl | hx
    · exact ⟨y, rnd 0, List.mem_cons_self, hb⟩
    · obtain ⟨z, r, hz, hf⟩ := ih hout hx
      exact ⟨z, r, List.mem_cons_of_mem _ hz, hf⟩

/-! ## The kinds of packets -/

/-- What a decrypted packet of a session is. -/
inductive Kind where
  | plain (p : Bytes)
  | data (p : Bytes)
  | oob (payload : Bytes)
  | parity

/-- The bytes of a packet with the conversation `conv`. -/
inductive Sealed (conv : UInt32) : Kind → Bytes → Prop where
  | plain {p : Bytes} (h : IKCP_OVERHEAD ≤ p.length) (hp : Carries (Speaks conv) p) : Sealed conv (.plain p) p
  | data {p sz : Bytes} (id : UInt32) (hsz : sz.length = 2) (h : IKCP_OVERHEAD ≤ p.length)
    (hp : Carries (Speaks conv) p) :
      Sealed conv (.data p) (fecHeader id typeData ++ (sz ++ p))
  | oob {payload sz : Bytes} (id : UInt32) (hsz : sz.length = 2) :
      Sealed conv (.oob payload) (fecHeader id typeOOB ++ (sz ++ (LE.put 4 conv.toNat ++ payload)))
  | parity (id : UInt32) (code : Bytes) (h : 12 ≤ (fecHeader id typeParity ++ code).length) :
      Sealed conv .parity (fecHeader id typeParity ++ code)

/-- A packet of the control block starts with the header of a segment. -/
theorem head_of_carries {conv : UInt32} {p : Bytes} (hp : Carries (Speaks conv) p) (h : IKCP_OVERHEAD ≤ p.length) :
    ∃ w rest, p = Segment.header w ++ rest ∧ Speaks conv w := by
  obtain ⟨ws, rfl, hw⟩ := hp
  cases ws with
  | nil => exact absurd h (by decide)
  | cons w ws =>
    refine ⟨w, w.bytes ++ encodeAll ws, ?_, hw w List.mem_cons_self⟩
    rw [encodeAll_cons, Segment.wire, List.append_assoc]

/-- The low byte of the FEC type field is the command of a plain packet. -/
theorem flag_header (w : Segment) (rest : Bytes) : (flag (w.header ++ rest)).toNat % 256 = w.cmd.toNat := by
  have hdrop : ((w.header ++ rest).drop 4).take 2 = [w.cmd, w.frg] := by
    simp only [Segment.header, List.append_assoc]
    rw [List.drop_left' (LE.put_length _ _)]
    rfl
  have hcmd := w.cmd.toNat_lt
  have hfrg := w.frg.toNat_lt
  unfold flag LE.u16
  rw [hdrop, UInt16.toNat_ofNat']
  simp only [LE.get]
  omega

/-- No command is a FEC type. -/
theorem flag_plain {conv : UInt32} {p : Bytes} (hp : Carries (Speaks conv) p) (h : IKCP_OVERHEAD ≤ p.length) :
    flag p ≠ typeData ∧ flag p ≠ typeParity ∧ flag p ≠ typeOOB := by
  obtain ⟨w, rest, rfl, hw⟩ := head_of_carries hp h
  have hlow := flag_header w rest
  have hcmd : w.cmd.toNat < 85 := by
    have := hw.cmd
    simp only [KCP.isCmd, Bool.or_eq_true, decide_eq_true_eq] at this
    rcases this with ((h | h) | h) | h <;> rw [h] <;> decide
  refine ⟨?_, ?_, ?_⟩ <;>
  · intro hflag
    rw [hflag] at hlow
    have : w.cmd.toNat ≥ 85 := by
      rw [← hlow]
      decide
    omega

theorem conv_of_carries {conv : UInt32} {p : Bytes} (hp : Carries (Speaks conv) p) (h : IKCP_OVERHEAD ≤ p.length) :
    LE.u32 p 0 = conv := by
  obtain ⟨w, rest, rfl, hw⟩ := head_of_carries hp h
  have := congrArg Header.conv (readHeader_encode w rest)
  exact this.trans hw.conv

/-- Fields behind the FEC header. -/
theorem u32_behind (id : UInt32) (ty : UInt16) {sz : Bytes} (hsz : sz.length = 2) (p : Bytes) :
    LE.u32 (fecHeader id ty ++ (sz ++ p)) 8 = LE.u32 p 0 := by
  have hlen : (fecHeader id ty ++ sz).length = 8 := by
    rw [List.length_append, fecHeader_length, hsz]
  unfold LE.u32
  rw [← List.append_assoc, List.drop_left' hlen, List.drop_zero]

def Kind.hasConv : Kind → Bool
  | .parity => false
  | _ => true

namespace Sealed

variable {conv : UInt32} {kind : Kind} {d : Bytes}

theorem long (h : Sealed conv kind d) : minPacketSize ≤ d.length := by
  show 12 ≤ d.length
  cases h with
  | plain h =>
    unfold IKCP_OVERHEAD at h
    omega
  | data id hsz h =>
    simp only [List.length_append, fecHeader_length, hsz]
    unfold IKCP_OVERHEAD at h
    omega
  | oob id hsz =>
    simp only [List.length_append, fecHeader_length, hsz, LE.put_length]
    omega
  | parity id code h => exact h

/-- **The conversation a listener reads** is the sender's, and none from
parity. -/
theorem origin (h : Sealed conv kind d) : ∃ o, L4.origin d = .ok (some o) ∧ o.hasConv = kind.hasConv ∧
    (o.hasConv = true → o.conv = conv) := by
  have h12 : 12 ≤ d.length := h.long
  unfold L4.origin
  rw [if_neg (by omega)]
  cases h with
  | plain hlen hp =>
    obtain ⟨h1, h2, h3⟩ := flag_plain hp hlen
    rw [if_neg h1, if_neg h2, if_neg h3, if_neg (Nat.not_lt.mpr hlen)]
    exact ⟨_, rfl, rfl, fun _ => conv_of_carries hp hlen⟩
  | @data p sz id hsz hlen hp =>
    have hmin : fecHeaderSizePlus2 + IKCP_OVERHEAD ≤ (fecHeader id typeData ++ (sz ++ p)).length := by
      simp only [List.length_append, fecHeader_length, hsz]
      unfold fecHeaderSizePlus2
      omega
    rw [if_pos (flag_sealed _ _ _), if_neg (Nat.not_lt.mpr hmin)]
    exact ⟨_, rfl, rfl, fun _ => (u32_behind id typeData hsz p).trans (conv_of_carries hp hlen)⟩
  | @oob payload sz id hsz =>
    rw [flag_sealed, if_neg (by decide), if_neg (by decide), if_pos rfl,
      if_neg (by unfold fecHeaderSizePlus2 convSize; omega)]
    refine ⟨_, rfl, rfl, fun _ => (u32_behind id typeOOB hsz _).trans ?_⟩
    exact LE.u32_put [] payload conv 0 rfl
  | parity id code =>
    rw [flag_sealed, if_neg (by decide), if_pos rfl]
    exact ⟨_, rfl, rfl, fun hno => by cases hno⟩

end Sealed

/-! ## Routing -/

/-- What a packet reaches, in order. Shards that the decoder recovers go to
the control block as FEC packets. -/
def Routes (callback : Bool) (d : Bytes) : Kind → List Reached → Prop
  | .plain p, got => got = [.kcp p .regular]
  | .data p, got => ∃ rest, got = .kcp p .regular :: .decoder d :: rest ∧ ∀ x ∈ rest, ∃ q, x = .kcp q .fec
  | .oob payload, got => callback = true → got = [.oob payload]
  | .parity, got => ∃ rest, got = .decoder d :: rest ∧ ∀ x ∈ rest, ∃ q, x = .kcp q .fec

section
variable {lib : Lib} {s s' : Session} {got : List Reached}

theorem inputRecovered_fec {clks : Nat → Clock} {rs : List Bytes} (h : s.inputRecovered clks rs = .ok (s', got)) :
    ∀ x ∈ got, ∃ q, x = .kcp q .fec := by
  induction rs generalizing s clks got with
  | nil =>
    cases h
    simp
  | cons r rs ih =>
    rw [inputRecovered] at h
    split at h
    · exact ih h
    · obtain ⟨s₁, -, h⟩ := Go.bind_ok h
      obtain ⟨⟨s₂, got'⟩, h2, h⟩ := Go.bind_ok h
      cases h
      intro x hx
      rcases List.mem_cons.mp hx with rfl | hx
      · exact ⟨_, rfl⟩
      · exact ih h2 x hx

theorem inputData_got {f : Bytes} {clk : Clock} (h : s.inputData f clk = .ok (s', got)) :
    got = if flag f = typeData then [.kcp (f.drop fecHeaderSizePlus2) .regular] else [] := by
  unfold inputData at h
  by_cases hflag : flag f = typeData
  · rw [if_pos hflag] at h
    obtain ⟨s₁, -, h⟩ := Go.bind_ok h
    cases h
    rw [if_pos hflag]
  · rw [if_neg hflag] at h
    cases h
    rw [if_neg hflag]

/-- A packet with a FEC header reaches the decoder, after the control block
if it is data. -/
theorem fecInput_routes {f : Bytes} {clks : Nat → Clock} (hlen : fecHeaderSizePlus2 ≤ f.length)
    (h : s.fecInput lib f clks = .ok (s', got)) :
    ∃ rest, got = (if flag f = typeData then [.kcp (f.drop fecHeaderSizePlus2) .regular] else []) ++ .decoder f ::
      rest ∧
      ∀ x ∈ rest, ∃ q, x = .kcp q .fec := by
  unfold fecInput at h
  rw [if_neg (Nat.not_lt.mpr hlen)] at h
  split at h
  · cases h
  · obtain ⟨⟨s₁, got₁⟩, h1, h⟩ := Go.bind_ok h
    obtain ⟨⟨dec, rs⟩, -, h⟩ := Go.bind_ok h
    obtain ⟨⟨s₂, got₂⟩, h2, h⟩ := Go.bind_ok h
    cases h
    exact ⟨got₂, by rw [inputData_got h1], inputRecovered_fec h2⟩

/-- **Every packet is routed to its kind.** -/
theorem Sealed.routes {conv : UInt32} {kind : Kind} {d : Bytes} (hd : Sealed conv kind d) {clks : Nat → Clock}
    (h : s.kcpInput lib d clks = .ok (s', got)) : Routes s.callbackForOOB d kind got := by
  have h12 : 12 ≤ d.length := hd.long
  unfold kcpInput at h
  rw [if_neg (by omega)] at h
  cases hd with
  | plain hlen hp =>
    obtain ⟨h1, h2, h3⟩ := flag_plain hp hlen
    rw [if_neg (by simp [h1, h2]), if_neg h3] at h
    obtain ⟨s₁, -, h⟩ := Go.bind_ok h
    cases h
    rfl
  | @data p sz id hsz hlen hp =>
    rw [if_pos (.inl (flag_sealed _ _ _))] at h
    obtain ⟨rest, hgot, hrest⟩ := fecInput_routes (by unfold fecHeaderSizePlus2; omega) h
    have hdrop : (fecHeader id typeData ++ (sz ++ p)).drop fecHeaderSizePlus2 = p := by
      rw [← List.append_assoc]
      exact List.drop_left' (by rw [List.length_append, fecHeader_length, hsz]; rfl)
    rw [if_pos (flag_sealed _ _ _), hdrop] at hgot
    exact ⟨rest, hgot, hrest⟩
  | @oob payload sz id hsz =>
    intro hcb
    rw [flag_sealed, if_neg (by decide), if_pos rfl, if_pos hcb,
      if_neg (by unfold fecHeaderSizePlus2 convSize; omega)] at h
    cases h
    have hdrop : (fecHeader id typeOOB ++ (sz ++ (LE.put 4 conv.toNat ++ payload))).drop
      (fecHeaderSizePlus2 + convSize) =
        payload := by
      rw [← List.append_assoc, ← List.append_assoc]
      exact List.drop_left' (by simp [hsz, fecHeaderSizePlus2, convSize])
    rw [hdrop]
  | parity id code =>
    rw [if_pos (.inr (flag_sealed _ _ _))] at h
    obtain ⟨rest, hgot, hrest⟩ := fecInput_routes (by unfold fecHeaderSizePlus2; omega) h
    rw [flag_sealed, if_neg (by decide)] at hgot
    exact ⟨rest, hgot, hrest⟩

end

/-! ## The request behind a datagram -/

/-- What a request of `output` or `SendOOB` asks to be sent: the bytes behind
the reserved ones. -/
def Asks (s : Session) (req : SendRequest) : Kind → Prop
  | .plain p => s.fecEncoder.isSome = false ∧ req.oob = false ∧ req.buffer.drop s.headerSize = p
  | .data p => s.fecEncoder.isSome = true ∧ req.oob = false ∧ req.buffer.drop s.headerSize = p
  | .oob payload => req.oob = true ∧ req.buffer.drop s.headerSize = LE.put 4 s.kcp.conv.toNat ++ payload
  | .parity => False

/-- A request behind its FEC header is a packet of its kind. -/
theorem sealed_of_wrapped {lib : Lib} {s : Session} (h : Inv lib s) {req : SendRequest}
    (hq : Queued s.headerSize s.block.overhead s.kcp.conv s.fecEncoder.isSome req) {buf : Bytes}
    (hw : Wrapped s.block.headerSize s.fecEncoder.isSome req buf) :
    ∃ kind, s.Asks req kind ∧ Sealed s.kcp.conv kind (buf.drop s.block.headerSize) := by
  have hhead := h.header
  have hlow := hq.lower
  unfold Wrapped at hw
  cases hfec : s.fecEncoder.isSome with
  | false =>
    rw [hfec] at hw hhead
    have hoob : req.oob = false := by
      by_contra ho
      have := (hq.oob (by simpa using ho)).1
      rw [hfec] at this
      cases this
    obtain ⟨hmin, hp⟩ := hq.kcp hoob
    have hbuf : buf = req.buffer := hw
    have hsize : s.headerSize = s.block.headerSize := hhead
    rw [hbuf, ← hsize]
    exact ⟨.plain _, ⟨hfec, hoob, rfl⟩, .plain hmin hp⟩
  | true =>
    rw [hfec] at hw hhead
    obtain ⟨id, sz, hsz, rfl⟩ := hw
    have hsize : s.headerSize = s.block.headerSize + 8 := hhead
    have hdrop : (req.buffer.take s.block.headerSize ++ fecHeader id (if req.oob = true then typeOOB else typeData) ++
        (sz ++ req.buffer.drop (s.block.headerSize + 8))).drop s.block.headerSize =
        fecHeader id (if req.oob = true then typeOOB else typeData) ++ (sz ++ req.buffer.drop s.headerSize) := by
      rw [List.append_assoc, List.drop_left' (List.length_take_of_le (by omega)), hsize]
    rw [hdrop]
    cases hoob : req.oob with
    | false =>
      obtain ⟨hmin, hp⟩ := hq.kcp hoob
      exact ⟨.data _, ⟨hfec, hoob, rfl⟩, .data id hsz hmin hp⟩
    | true =>
      obtain ⟨-, payload, hpay⟩ := hq.oob hoob
      rw [hpay]
      exact ⟨.oob payload, ⟨hoob, hpay⟩, .oob id hsz⟩

theorem sealed_of_parity {lib : Lib} {s : Session} (h : Inv lib s) {x : Bytes} (hx : s.IsParity x) :
    Sealed s.kcp.conv .parity (x.drop s.block.headerSize) := by
  obtain ⟨⟨pre, id, code, hpre, rfl⟩, hlen, -⟩ := hx
  rw [List.append_assoc, List.drop_left' hpre]
  have hhead : s.block.headerSize ≤ s.headerSize := by
    rw [h.header]
    exact Nat.le_add_right _ _
  refine .parity id code ?_
  rw [List.append_assoc, List.length_append, hpre] at hlen
  unfold IKCP_OVERHEAD at hlen
  omega

end Session

/-! ## Receivers -/

/-- The datagram `b`, which decrypts to `d`, is accepted and routed at every
receiver with the cipher. -/
structure Delivered (lib : Lib) (block : Block) (conv : UInt32) (kind : Session.Kind) (d b : Bytes) : Prop where
  opens : Session.unframe block b = .ok (some d)
  /-- a session of its own -/
  session : ∀ conv' ds ps r, (Session.mtuLts lib conv' ds ps block).Reachable r → ∀ clks,
    ∃ r' got, r.packetInput lib b clks = .ok (r', got) ∧ Session.Routes r.callbackForOOB d kind got
  /-- what a listener reads -/
  reads : ∃ o, origin d = .ok (some o) ∧ o.hasConv = kind.hasConv ∧ (o.hasConv = true → o.conv = conv)
  /-- the session that a listener has for the address -/
  registered : ∀ (Addr : Type) [DecidableEq Addr] ds ps (l : Listener Addr),
    (∃ s, Session.new lib 0 ds ps block = .ok s) →
    (Listener.lts Addr lib ds ps block).Reachable l → ∀ addr i c clks, l.sessions.lookup addr = some i →
    l.heap[i]? = some c → c.sess.kcp.conv = conv →
      ∃ l' got, l.packetInput lib b addr clks = .ok (l', got.map fun r => (i, r)) ∧
      Session.Routes c.sess.callbackForOOB d kind got
  /-- the first packet of a conversation -/
  first : ∀ (Addr : Type) [DecidableEq Addr] ds ps (l : Listener Addr), (∃ s, Session.new lib 0 ds ps block = .ok s) →
    (Listener.lts Addr lib ds ps block).Reachable l → ∀ addr clks, l.sessions.lookup addr = none → l.die = false →
    l.chAccepts.length < acceptBacklog → kind.hasConv = true → ∃ l' got,
      l.packetInput lib b addr clks = .ok (l', got.map fun r => (l.heap.length, r)) ∧ l.Registered l' addr conv ∧
      Session.Routes false d kind got

section
variable {lib : Lib} {block : Block} {conv : UInt32} {kind : Session.Kind} {d b : Bytes}

/-- A listener dispatches what it decrypts. -/
theorem dispatched_of_sealed {Addr : Type} [DecidableEq Addr] (hlib : Documented lib) {l : Listener Addr}
    (h : Listener.Inv lib l) (hs : Session.Sealed conv kind d) (hlen : d.length ≤ maxPacketSize)
    (hu : Session.unframe l.block b = .ok (some d)) (addr : Addr) (clks : Nat → Clock) :
    ∃ o l' got, origin d = .ok (some o) ∧ o.hasConv = kind.hasConv ∧ (o.hasConv = true → o.conv = conv) ∧
      l.packetInput lib b addr clks = .ok (l', got) ∧ l.Outcome lib o d addr l' got := by
  obtain ⟨o, ho, hhas, hconv⟩ := hs.origin
  obtain ⟨l', got, hd, -, hh⟩ := Listener.decrypted_spec hlib h addr hlen clks
  refine ⟨o, l', got, ho, hhas, hconv, by rw [Listener.packetInput, hu]; exact hd, ?_⟩
  cases hh with
  | dropped hdrop =>
    rcases hdrop with hshort | hnone
    · exact absurd hs.long (Nat.not_le.mpr hshort)
    · rw [ho] at hnone
      cases hnone
  | dispatched _ ho' hout =>
    rw [ho] at ho'
    cases ho'
    exact hout

/-- **A packet of a session is delivered** wherever its datagram decrypts. -/
theorem delivered (hlib : Documented lib) (hb : block.Lawful) (hs : Session.Sealed conv kind d)
    (hu : Session.unframe block b = .ok (some d)) (hlen : b.length ≤ maxPacketSize) :
    Delivered lib block conv kind d b := by
  have hdlen : d.length ≤ maxPacketSize := by
    obtain ⟨r, hr, hle⟩ := Session.unframe_ok hb b
    rw [hu] at hr
    cases hr
    exact Nat.le_trans (hle d rfl) hlen
  refine ⟨hu, ?_, hs.origin, ?_, ?_⟩
  · intro conv' ds ps r hr clks
    have hblock := (Session.mtuLts_block hlib hb).reachable r hr
    obtain ⟨r', got, hk, -⟩ := Session.kcpInput_ok hlib ((Session.mtuLts_inv hlib hb).reachable r hr) hs.long hdlen clks
    refine ⟨r', got, ?_, hs.routes hk⟩
    rw [Session.packetInput, hblock, hu, Go.ok_bind]
    dsimp only
    rw [if_neg (Nat.not_lt.mpr hs.long), hk]
  · intro Addr _ ds ps l ha hr addr i c clks hi hc hconv
    obtain ⟨hinv, hblock⟩ := Listener.inv_of_reachable hlib hb ha hr
    obtain ⟨o, l', got, -, -, hread, hp, hout⟩ := dispatched_of_sealed hlib hinv hs hdlen (hblock ▸ hu) addr clks
    cases hout with
    | fed hj hc' _ hin =>
      rw [hi] at hj
      cases hj
      rw [hc] at hc'
      cases hc'
      exact ⟨_, _, hp, hs.routes hin⟩
    | ignored hj hc' hne =>
      rw [hi] at hj
      cases hj
      rw [hc] at hc'
      cases hc'
      exact absurd ((hread hne.1).trans hconv.symm) hne.2
    | offered hj =>
      rw [hi] at hj
      cases hj
    | evicted hj hc' hne =>
      rw [hi] at hj
      cases hj
      rw [hc] at hc'
      cases hc'
      exact absurd ((hread hne.1).trans hconv.symm) hne.2
  · intro Addr _ ds ps l ha hr addr clks hi hopen hroom hkind
    obtain ⟨hinv, hblock⟩ := Listener.inv_of_reachable hlib hb ha hr
    obtain ⟨o, l', got, -, hhas, hread, hp, hout⟩ := dispatched_of_sealed hlib hinv hs hdlen (hblock ▸ hu) addr clks
    have hhas : o.hasConv = true := hhas.trans hkind
    cases hout with
    | fed hj => rw [hi] at hj; cases hj
    | ignored hj => rw [hi] at hj; cases hj
    | evicted hj => rw [hi] at hj; cases hj
    | offered _ hadm =>
      cases hadm with
      | refused hno =>
        rcases hno with hno | hfull
        · rw [hhas] at hno
          cases hno
        · exact absurd hroom (Nat.not_lt.mpr hfull)
      | made _ _ hnew hin _ =>
        refine ⟨_, _, hp, ?_, ?_⟩
        · rw [← hread hhas]
          exact Listener.registered_of_made hlib hinv.block hnew hin
        · rw [← Session.new_callback hnew]
          exact hs.routes hin
      | late _ hd _ =>
        rw [hopen] at hd
        cases hd

end

/-- **The packet pipeline round-trips.** -/
theorem pipeline_roundtrip {lib : Lib} {conv : UInt32} {ds ps : Nat} {block : Block} (hlib : Documented lib)
    (hb : block.Lawful) (hi : block.Inverts) {s : Session} (hr : (Session.mtuLts lib conv ds ps block).Reachable s)
    {req : SendRequest} {q : List SendRequest} (hq : s.postQueue = req :: q) (rnd : Nat → Bytes) (now : Int) :
    ∃ s' b copies parity kind, s.postProcess rnd now = .ok (s', b :: copies ++ parity) ∧ s.Asks req kind ∧
      (∀ x ∈ b :: copies, ∃ d, Delivered lib block s.kcp.conv kind d x) ∧
      ∀ x ∈ parity, ∃ d, Delivered lib block s.kcp.conv .parity d x := by
  have hinv := (Session.mtuLts_inv hlib hb).reachable s hr
  have hblock := (Session.mtuLts_block hlib hb).reachable s hr
  obtain ⟨s', out, hp, -, ⟨buf, b, ecc, pkts, hw, hf, hpar, hall, rfl⟩, hshort⟩ :=
    Session.postProcess_spec hinv hq rnd now
  obtain ⟨kind, hask, hsealed⟩ :=
    Session.sealed_of_wrapped hinv (hinv.queue req (by rw [hq]; exact List.mem_cons_self)) hw
  rw [hblock] at hsealed hf hall
  refine ⟨s', b, _, pkts, kind, hp, hask, fun x hx => ?_, fun x hx => ?_⟩
  · have hx' : x = b := by
      rcases List.mem_cons.mp hx with rfl | hx
      · rfl
      · exact List.eq_of_mem_replicate hx
    subst hx'
    exact ⟨_, delivered hlib hb hsealed (Session.unframe_frame hi hf) (hshort _ (List.mem_append_left _ hx))⟩
  · obtain ⟨y, rnd', hy, hxy⟩ := Session.frameAll_mem hall hx
    have hsx := Session.sealed_of_parity hinv (hpar y hy)
    rw [hblock] at hsx
    exact ⟨_, delivered hlib hb hsx (Session.unframe_frame hi hxy) (hshort _ (List.mem_append_right _ hx))⟩

/-- An AEAD whose tag is its nonce, filled up to 16 bytes. -/
def nonceTag : Aead where
  nonceSize := 12
  overhead := 16
  sealing nonce p := p ++ Session.fillRand 16 nonce
  opening nonce c :=
    if 16 ≤ c.length ∧ c.drop (c.length - 16) = Session.fillRand 16 nonce then some (c.take (c.length - 16))
    else none
  small := by decide

theorem nonceTag_lawful : nonceTag.Lawful where
  grows nonce p := by simp [nonceTag, Session.fillRand_length]
  keeps nonce p := by simp [nonceTag]
  shrinks nonce c p h := by
    unfold nonceTag at h
    dsimp only at h
    split at h
    · cases h
      exact List.length_take_le' _ _
    · cases h

theorem nonceTag_inverts : nonceTag.Inverts where
  opens nonce p _ := by
    have hlen : (p ++ Session.fillRand 16 nonce).length - 16 = p.length := by simp [Session.fillRand_length]
    unfold nonceTag
    dsimp only
    rw [hlen, if_pos ⟨by simp [Session.fillRand_length], List.drop_left' rfl⟩, List.take_left' rfl]
  tagged nonce p := by simp [nonceTag, Session.fillRand_length]

/-- A session with FEC and an AEAD, with a packet to send. -/
def written : Go Session := do
  let s ← Session.new xors 7 2 1 (.aead nonceTag)
  Session.calls xors s [.write [[1]] (fun _ => 0), .update (fun _ => 0)]

theorem pipeline_roundtrip_aead : ∃ s req q s' b copies parity kind, written = .ok s ∧ s.postQueue = req :: q ∧
    s.postProcess (fun _ => [5]) 0 = .ok (s', b :: copies ++ parity) ∧ s.Asks req kind ∧
    (∀ x ∈ b :: copies, ∃ d, Delivered xors (.aead nonceTag) s.kcp.conv kind d x) ∧
    ∀ x ∈ parity, ∃ d, Delivered xors (.aead nonceTag) s.kcp.conv .parity d x := by
  obtain ⟨s, hs, htest⟩ : ∃ s, written = .ok s ∧ decide (s.postQueue.length = 1) = true :=
    Go.of_test (by decide +kernel)
  obtain ⟨s₀, h0, hcalls⟩ := Go.bind_ok hs
  have hrun : (Session.mtuLts xors 7 2 1 (.aead nonceTag)).Run s₀ [.write [[1]] (fun _ => 0),
      .update (fun _ => 0)] s := by
    refine Session.run_of_calls ?_ hcalls
    simp only [List.mem_cons, List.not_mem_nil, or_false, forall_eq_or_imp, forall_eq]
    exact ⟨fun s s' o h => ⟨⟨trivial, o, h⟩, by rintro m ⟨⟩⟩, fun s s' o h => ⟨⟨trivial, o, h⟩, by rintro m ⟨⟩⟩⟩
  obtain ⟨req, hreq⟩ := List.length_eq_one_iff.mp (of_decide_eq_true htest)
  obtain ⟨s', b, copies, parity, kind, h⟩ :=
    @pipeline_roundtrip xors 7 2 1 (.aead nonceTag) xors_documented nonceTag_lawful
    nonceTag_inverts s ⟨s₀, _, h0, hrun⟩ req [] hreq (fun _ => [5]) 0
  exact ⟨s, req, [], s', b, copies, parity, kind, hs, hreq, h⟩

end KcpGo.L4
