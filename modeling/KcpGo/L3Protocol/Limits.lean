import KcpGo.L3Protocol.Packets

/-!
# Lengths the code relies on

* `pool_usable`: payloads live in pool buffers of 1472 bytes. `SetMtu` has a
  lower bound only, and `parse_data` takes the length of the packet, so a
  larger MTU or packet runs into the capacity (`mtu_beyond_pool`).
* `input32_guarded_iff`: where `int` has 32 bits, the length field of a header
  is compared after a conversion that makes it negative from 2^31 on
  (`length_negative`).
-/
namespace KcpGo.L2

open KcpGo.L1 KcpGo.Serial

/-! ## Pool buffers -/

namespace KCP

/-- A packet of whole segments, each of which fits into a pool buffer. -/
theorem inputLoop_pool (pkt : PacketType) : ∀ (ws : List Segment), (∀ w ∈ ws, w.len ≤ maxPacketSize) →
    ∀ (n : Nat) (st : InLoop),
    ∃ r, inputLoop pkt n (encodeAll ws) st = .ok r
  | [], _, n, st => by
    cases n with
    | zero => exact ⟨_, rfl⟩
    | succ n => exact ⟨_, rfl⟩
  | w :: ws, hlen, 0, st => ⟨_, rfl⟩
  | w :: ws, hlen, n + 1, st => by
    have hw := hlen w List.mem_cons_self
    have hlength : w.head.length.toNat = w.len := by
      simp only [Segment.head, toNat_u32]
      exact Nat.mod_eq_of_lt (Nat.lt_of_le_of_lt hw (by decide))
    have hcat : encodeAll (w :: ws) = w.header ++ (w.bytes ++ encodeAll ws) := by simp [Segment.wire]
    have hdrop : (w.header ++ (w.bytes ++ encodeAll ws)).drop IKCP_OVERHEAD = w.bytes ++ encodeAll ws :=
      List.drop_left' (by simp [IKCP_OVERHEAD])
    rw [inputLoop, hcat, if_neg (by simp [IKCP_OVERHEAD])]
    dsimp only
    rw [readHeader_encode, hdrop, hlength]
    split
    · exact ⟨_, rfl⟩
    split
    · exact ⟨_, rfl⟩
    split
    · exact ⟨_, rfl⟩
    rw [List.take_left' (by simp [Segment.len]), List.drop_left' (by simp [Segment.len])]
    obtain ⟨st', hs⟩ := inputSeg_ok pkt w.head hw st
    rw [hs]
    exact inputLoop_pool pkt ws (fun x hx => hlen x (List.mem_cons_of_mem _ hx)) n st'

end KCP

/-- The sizes in a call stay within the pool buffers. -/
def InPool : Op → Prop
  | .setMtu mtu => mtu ≤ poolMtu
  | .input data _ _ _ => ∃ ws, data = encodeAll ws ∧ ∀ w ∈ ws, w.len ≤ maxPacketSize
  | _ => True

theorem InPool.setMtu_le {op : Op} (h : InPool op) : ∀ m, op = .setMtu m → m ≤ poolMtu := by
  intro m hm
  subst hm
  exact h

def pooled (conv : UInt32) : LTS KCP Op := (machine conv).restrict fun _ op _ => InPool op

theorem pooled_sendable (conv : UInt32) : (pooled conv).Inductive (Sendable poolMtu) where
  init k hk := by
    rw [show k = newKCP conv from hk]
    exact (sendable_newKCP conv).mono (by decide)
  step k op k' h hs := by
    obtain ⟨⟨o, ho⟩, hop⟩ := hs
    exact (h.step (Nat.le_refl _) hop.setMtu_le ho).1

/-- No operation of such a run panics. -/
theorem sendable_returns {k : KCP} {op : Op} (h : Sendable poolMtu k) (hop : InPool op) : ∃ r, step k op = .ok r := by
  have hmss : k.mss.toNat ≤ maxPacketSize := by
    have := h.mss_le
    unfold poolMtu at this
    omega
  cases op with
  | send buffer =>
    obtain ⟨r, hr⟩ := KCP.send_ok h.mss hmss h.snd.queue buffer
    exact ⟨_, by rw [step, hr]; rfl⟩
  | recv room =>
    obtain ⟨r, hr⟩ := k.recv_ok room
    exact ⟨_, by rw [step, hr]; rfl⟩
  | flush ft clk =>
    obtain ⟨r, hr⟩ := KCP.flush_ok h.roomy ft clk
    exact ⟨_, by rw [step, hr]; rfl⟩
  | input data pkt nd clk =>
    obtain ⟨ws, rfl, hws⟩ := hop
    obtain ⟨r, hr⟩ := KCP.input_of_loop h.roomy h.mss (KCP.inputLoop_pool pkt ws hws _ _) nd clk
    exact ⟨_, by rw [step, hr]; rfl⟩
  | setMtu mtu =>
    obtain ⟨e, r, hr, -⟩ := k.setMtu_ok hop
    exact ⟨_, by rw [step, hr]; rfl⟩
  | update clk =>
    have hbody : Body k (.update clk) (k.updateTimer (clk 0)).1 := .idle rfl (updateTimer_same k (clk 0))
    have hroom : Roomy (k.updateTimer (clk 0)).1 := hbody.roomy (fun m hm => by cases hm) h.roomy
    obtain ⟨⟨k', out, nx⟩, hr⟩ := KCP.flush_ok hroom .full clk.tail
    have hupd : ∃ y, k.update clk = .ok y := by
      unfold KCP.update
      split
      · rw [hr]
        exact ⟨_, rfl⟩
      · exact ⟨_, rfl⟩
    obtain ⟨y, hy⟩ := hupd
    exact ⟨_, by rw [step, hy]; rfl⟩
  | peekSize => exact ⟨_, rfl⟩
  | noDelay a b c d => exact ⟨_, rfl⟩
  | wndSize a b => exact ⟨_, rfl⟩
  | setStream on => exact ⟨_, rfl⟩
  | resetRTO clk => exact ⟨_, rfl⟩
  | waitSnd => exact ⟨_, rfl⟩
  | check now => exact ⟨_, rfl⟩

/-- A message longer than a pool buffer, cut at an MSS beyond it. -/
theorem send_beyond_pool {k : KCP} (hs : k.stream = 0) (hm : maxPacketSize < k.mss.toNat) :
    k.send (List.replicate (maxPacketSize + 1) 0) = .error .sliceBounds := by
  have hlen : (List.replicate (maxPacketSize + 1) (0 : UInt8)).length = maxPacketSize + 1 := List.length_replicate
  unfold KCP.send
  rw [if_neg (by simp [List.replicate_succ]), if_pos hs, KCP.sendFresh, hlen, KCP.fragCount,
    if_pos (by omega), Go.ok_bind,
    if_neg (by decide), KCP.fragments, hlen, if_pos (by omega)]
  rfl

/-- A payload longer than a pool buffer, in the receive window. -/
theorem input_beyond_pool {conv : UInt32} {w : Segment} (hc : w.conv = conv)
    (hcmd : w.cmd = IKCP_CMD_PUSH) (hsn : w.sn = 0)
    (hlong : maxPacketSize < w.len) (hlen : w.len < 2 ^ 32) (pkt : PacketType) (nd : Bool) (clk : Clock) :
    (newKCP conv).input (encodeAll [w]) pkt nd clk = .error .sliceBounds := by
  have hlegal : ∀ x ∈ [w], KCP.Legal (newKCP conv).conv x := by
    intro x hx
    rw [List.mem_singleton.mp hx]
    exact ⟨hc, by rw [hcmd]; rfl, hlen⟩
  have hpush : ∀ k : KCP, k.rcvNxt = 0 → k.rcvWnd = IKCP_WND_RCV → k.rcvBuf = .empty →
      k.inputPush w.head w.bytes = .error .sliceBounds := by
    intro k hn hwnd hbuf
    have hfirst : itimediff w.sn (k.rcvNxt + k.rcvWnd) < 0 ∧ 0 ≤ itimediff w.sn k.rcvNxt := by
      rw [hsn, hn, hwnd]
      decide
    have hin : ¬ (0 ≤ itimediff w.sn (k.rcvNxt + k.rcvWnd) ∨ itimediff w.sn k.rcvNxt < 0) :=
      not_or.mpr ⟨Int32.not_le.mpr hfirst.1, Int32.not_lt.mpr hfirst.2⟩
    have hnew : ¬ k.rcvBuf.has w.sn = true := by simp [hbuf, SegHeap.has, SegHeap.empty]
    have hdata : (k.ackPush w.head.sn w.head.ts).parseData (KCP.pushed w.head w.bytes) = .error .sliceBounds := by
      unfold KCP.parseData
      exact (if_neg hin).trans ((if_neg hnew).trans (if_pos hlong))
    unfold KCP.inputPush
    rw [hdata]
    exact (if_pos hfirst.1).trans (if_pos hfirst.2)
  have hseg : KCP.inputSeg pkt w.head w.bytes ⟨newKCP conv, 0, false, false⟩ = .error .sliceBounds := by
    have hcmd' : w.head.cmd = IKCP_CMD_PUSH := hcmd
    unfold KCP.inputSeg
    dsimp only
    rw [hcmd', if_neg (by decide), if_pos rfl, hpush _ (by cases pkt <;> rfl) (by cases pkt <;> rfl)
      (by cases pkt <;> rfl)]
    rfl
  have hge : ¬ (encodeAll [w]).length < IKCP_OVERHEAD := by
    simp [IKCP_OVERHEAD]
  have hloop : KCP.inputLoop pkt (encodeAll [w]).length (encodeAll [w]) ⟨newKCP conv, 0, false, false⟩ =
      .error .sliceBounds := by
    rw [KCP.inputLoop_encodeAll hlegal (by simp; omega), KCP.inputSegs, hseg]
    rfl
  unfold KCP.input KCP.inputBody
  rw [if_neg hge, hloop]
  rfl

/-- **Every size within the pool buffers is usable, and no other**: no
operation of a run panics whose MTUs leave at most 1472 bytes to a segment and
whose packets carry at most 1472 bytes in one; a fresh control block with a
larger MSS panics in `Send`, and on a larger payload in `Input`. -/
theorem pool_usable (conv : UInt32) :
    (∀ k, (pooled conv).Reachable k → ∀ op, InPool op → ∃ r, step k op = .ok r) ∧
      (∀ m e, (newKCP conv).setMtu m = .ok (e, 0) → maxPacketSize < e.mss.toNat →
        e.send (List.replicate (maxPacketSize + 1) 0) = .error .sliceBounds) ∧
      ∀ w : Segment, w.conv = conv → w.cmd = IKCP_CMD_PUSH → w.sn = 0 → maxPacketSize < w.len → w.len < 2 ^ 32 →
        ∀ pkt nd clk, (newKCP conv).input (encodeAll [w]) pkt nd clk = .error .sliceBounds := by
  refine ⟨?_, ?_, ?_⟩
  · intro k hr op hop
    exact sendable_returns ((pooled_sendable conv).reachable k hr) hop
  · intro m e hm hmss
    have hs : e.stream = 0 := by
      unfold KCP.setMtu at hm
      split at hm
      · cases hm
      · dsimp only at hm
        split at hm
        · cases hm
        · cases hm
          rfl
    exact send_beyond_pool hs hmss
  · intro w hc hcmd hsn hlong hlen pkt nd clk
    exact input_beyond_pool hc hcmd hsn hlong hlen pkt nd clk

/-- The largest MTU of the condition: a message of 1472 bytes is sent, and
another one that comes in is taken. -/
theorem pool_usable_largest : ∃ k, (pooled 7).Reachable k ∧ k.mtu = 1496 ∧
    (∃ r, step k (.send (List.replicate 1472 0)) = .ok r) ∧
    ∃ r, step k (.input (encodeAll [{ conv := 7, cmd := IKCP_CMD_PUSH, data := some (List.replicate 1472 0) }])
      .regular true fun _ => 5) =
      .ok r := by
  obtain ⟨⟨k, o⟩, hs, htest⟩ : ∃ x, step (newKCP 7) (.setMtu 1496) = .ok x ∧ decide (x.1.mtu = 1496) = true :=
    Go.of_test (by decide +kernel)
  have hr : (pooled 7).Reachable k :=
    ⟨_, [.setMtu 1496], rfl, .cons ⟨⟨o, hs⟩, (by decide : (1496 : Int) ≤ poolMtu)⟩ (.nil _)⟩
  refine ⟨k, hr, of_decide_eq_true htest, ?_, ?_⟩
  · exact (pool_usable 7).1 k hr _ trivial
  · refine (pool_usable 7).1 k hr _ ⟨_, rfl, fun w hw => ?_⟩
    rw [List.mem_singleton.mp hw]
    exact Nat.le_of_eq List.length_replicate

/-- `SetMtu(2000)` is accepted, and a `Send` of 1976 bytes panics. -/
theorem mtu_beyond_pool : ∃ k o, step (newKCP 7) (.setMtu 2000) = .ok (k, o) ∧ o.ret = 0 ∧
    step k (.send (List.replicate 1976 0)) = .error .sliceBounds := by
  obtain ⟨⟨k, o⟩, hs, htest⟩ : ∃ x, step (newKCP 7) (.setMtu 2000) = .ok x ∧
      (decide (x.2.ret = 0) && (step x.1 (.send (List.replicate 1976 0))).panics .sliceBounds) = true :=
    Go.of_test (by decide +kernel)
  rw [Bool.and_eq_true] at htest
  exact ⟨k, o, hs, of_decide_eq_true htest.1, Go.of_panics htest.2⟩

/-! ## A 32-bit `int` -/

namespace KCP

/-- The header loop where `int` has 32 bits: `int(length)` is signed. A length
beyond the data that passes the test panics, in `data[:length]` for a PUSH
segment of the window and else in `data[length:]`.
mirrors src/kcp.go:614-700 -/
def inputLoop32 (pkt : PacketType) : Nat → Bytes → InLoop → Go (InLoop × Option Int)
  | 0, _, st => .ok (st, none)
  | n + 1, data, st =>
    if data.length < IKCP_OVERHEAD then .ok (st, none)
    else
      let h := readHeader data
      let data := data.drop IKCP_OVERHEAD
      if h.conv ≠ st.k.conv then .ok (st, some (-1))
      else if (data.length : Int) < h.length.toInt32.toInt then .ok (st, some (-2))
      else if isCmd h.cmd = false then .ok (st, some (-3))
      else if data.length < h.length.toNat then .error .sliceBounds
      else do
        let st ← inputSeg pkt h (data.take h.length.toNat) st
        inputLoop32 pkt n (data.drop h.length.toNat) st

/-- `Input` up to the final flush, with the loop above.
mirrors src/kcp.go:604-740 -/
def inputBody32 (k : KCP) (data : Bytes) (pkt : PacketType) (clk : Clock) : Go (KCP × Option Int × Bool × Clock) :=
  if data.length < IKCP_OVERHEAD then .ok (k, some (-1), false, clk)
  else do
    let (st, ret) ← inputLoop32 pkt data.length data ⟨k, 0, false, false⟩
    match ret with
    | some r => .ok (st.k, some r, st.flushSegments, clk)
    | none => do
      let (k', clk) := sampleRtt pkt st clk
      let k' ← k'.growCwnd k.sndUna
      .ok (k', none, st.flushSegments, clk)

/-- The headers of a packet up to the first that ends the loop: one of them
has a length of 2^31 or more. -/
def longHeader (conv : UInt32) : Nat → Bytes → Bool
  | 0, _ => false
  | n + 1, data =>
    if data.length < IKCP_OVERHEAD then false
    else
      let h := readHeader data
      let data := data.drop IKCP_OVERHEAD
      if h.conv ≠ conv then false
      else if 2 ^ 31 ≤ h.length.toNat then true
      else if data.length < h.length.toNat then false
      else if isCmd h.cmd = false then false
      else longHeader conv n (data.drop h.length.toNat)

/-- The two loops agree up to the first header that is too long; there the one
returns -2 and the other does not. -/
theorem inputLoop32_iff (pkt : PacketType) (n : Nat) {data : Bytes} (hd : data.length ≤ maxPacketSize) (st : InLoop) :
    (∃ r, inputLoop32 pkt n data st = .ok r ∧ inputLoop pkt n data st = .ok r) ↔
      longHeader st.k.conv n data = false := by
  induction n generalizing data st with
  | zero => exact ⟨fun _ => rfl, fun _ => ⟨_, rfl, rfl⟩⟩
  | succ n ih =>
    have hint := toInt_toInt32 (readHeader data).length
    have hlen := (readHeader data).length.toNat_lt
    rw [inputLoop32, inputLoop, longHeader]
    by_cases hshort : data.length < IKCP_OVERHEAD
    · simp only [if_pos hshort]
      exact ⟨fun _ => trivial, fun _ => ⟨_, rfl, rfl⟩⟩
    simp only [if_neg hshort]
    by_cases hconv : (readHeader data).conv ≠ st.k.conv
    · simp only [if_pos hconv]
      exact ⟨fun _ => trivial, fun _ => ⟨_, rfl, rfl⟩⟩
    simp only [if_neg hconv]
    have hleft : (data.drop IKCP_OVERHEAD).length ≤ 1472 := by
      rw [List.length_drop]
      unfold maxPacketSize at hd
      omega
    by_cases hlong : 2 ^ 31 ≤ (readHeader data).length.toNat
    · -- the signed length is negative and passes the test
      rw [if_neg (by omega)] at hint
      simp only [if_pos hlong]
      rw [if_neg (by omega), if_pos (by omega : (data.drop IKCP_OVERHEAD).length < (readHeader data).length.toNat)]
      refine ⟨fun h => ?_, fun h => by cases h⟩
      obtain ⟨r, h32, h64⟩ := h
      rw [if_pos (by omega : (data.drop IKCP_OVERHEAD).length < (readHeader data).length.toNat)] at h64
      split at h32 <;> cases h32
      cases h64
    · rw [if_pos (by omega)] at hint
      simp only [if_neg hlong, hint]
      by_cases hover : (data.drop IKCP_OVERHEAD).length < (readHeader data).length.toNat
      · rw [if_pos (by omega), if_pos hover, if_pos hover]
        exact ⟨fun _ => rfl, fun _ => ⟨_, rfl, rfl⟩⟩
      rw [if_neg (by omega)]
      simp only [if_neg hover]
      by_cases hcmd : isCmd (readHeader data).cmd = false
      · simp only [if_pos hcmd]
        exact ⟨fun _ => trivial, fun _ => ⟨_, rfl, rfl⟩⟩
      simp only [if_neg hcmd]
      have hpay : ((data.drop IKCP_OVERHEAD).take (readHeader data).length.toNat).length ≤ maxPacketSize := by
        rw [List.length_take]
        unfold maxPacketSize
        omega
      obtain ⟨st', hs⟩ := inputSeg_ok pkt (readHeader data) hpay st
      have hc : st'.k.conv = st.k.conv := congrArg Cfg.conv (inputSeg_spec hs).cfg
      rw [hs, Go.ok_bind, Go.ok_bind, ← hc]
      exact ih (by rw [List.length_drop]; unfold maxPacketSize; omega) st'

/-- `Input` on a platform with a 32-bit `int` treats the packet as it should:
no slice leaves the data, and it goes on or returns as with exact lengths. -/
structure Guarded32 (k : KCP) (data : Bytes) (pkt : PacketType) (clk : Clock) : Prop where
  loop : ∃ r, inputLoop32 pkt data.length data ⟨k, 0, false, false⟩ = .ok r ∧
    inputLoop pkt data.length data ⟨k, 0, false, false⟩ = .ok r
  body : k.inputBody32 data pkt clk = k.inputBody data pkt clk

/-- **The length test is exact where `int` has 32 bits unless the packet has a
header with a length of 2^31 or more.** -/
theorem input32_guarded_iff (k : KCP) (data : Bytes) (hd : data.length ≤ 1472) (pkt : PacketType) (clk : Clock) :
    k.Guarded32 data pkt clk ↔ longHeader k.conv data.length data = false := by
  rw [← inputLoop32_iff pkt data.length hd ⟨k, 0, false, false⟩]
  constructor
  · exact fun h => h.loop
  · intro h
    refine ⟨h, ?_⟩
    obtain ⟨r, h32, h64⟩ := h
    have hloop := h32.trans h64.symm
    unfold inputBody32
    exact hloop ▸ rfl

/-- A WINS header without data that states a length. -/
def lengthPacket (length : UInt32) : Bytes :=
  (({ conv := 7, cmd := IKCP_CMD_WINS } : Segment).header.take 20) ++ LE.put 4 length.toNat

/-- The largest positive length is refused with -2. -/
theorem input32_guarded_largest : (newKCP 7).Guarded32 (lengthPacket 0x7FFFFFFF) .regular (fun _ => 5) ∧
    ∃ r, (newKCP 7).inputBody32 (lengthPacket 0x7FFFFFFF) .regular (fun _ => 5) = .ok r ∧ r.2.1 = some (-2) := by
  refine ⟨(input32_guarded_iff (newKCP 7) _ (by decide) .regular _).mpr (by decide +kernel), ?_⟩
  obtain ⟨r, hr, htest⟩ : ∃ r, (newKCP 7).inputBody32 (lengthPacket 0x7FFFFFFF) .regular (fun _ => 5) = .ok r ∧
      decide (r.2.1 = some (-2)) = true := Go.of_test (by decide +kernel)
  exact ⟨r, hr, of_decide_eq_true htest⟩

/-- The next one is negative: the test passes and the slice panics. -/
theorem length_negative : (machine 7).Reachable (newKCP 7) ∧ (lengthPacket 0x80000000).length = 24 ∧
    (newKCP 7).inputBody32 (lengthPacket 0x80000000) .regular (fun _ => 5) = .error .sliceBounds := by
  refine ⟨⟨_, [], rfl, .nil _⟩, by decide, Go.of_panics (by decide +kernel)⟩

end KCP
end KcpGo.L2
