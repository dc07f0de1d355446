import KcpGo.L2Machine.FlushOrder
import KcpGo.L3Protocol.SendWindow

/-!
# What a flush announces to the peer

* `flush_truthful_iff`: the window field of the segments of a flush against
  the free places of `rcv_queue`. The field has 16 bits and the window 32, so
  it fails for a whole number of turns of the field (`full_turn_closed`).
* `ack_filter_lossless`: phase 1 leaves out the acknowledgements below
  `rcv_nxt`, except the last one. At the peer these are no-ops once the `una`
  of the same header has been applied (`inputSegs_filter`).
-/
namespace KcpGo.L2

open KcpGo.L1 KcpGo.Serial

namespace KCP

variable {una r : UInt32} {pkt : PacketType}

/-! ## The window -/

/-- `max(0, rcv_wnd - rcv_queue.Len())`. -/
def freePlaces (k : KCP) : Nat := k.rcvWnd.toNat - k.rcvQueue.length

/-- The window field `wnd` tells the truth about `k`. -/
def Truthful (k : KCP) (wnd : UInt16) : Prop :=
  wnd.toNat ≤ k.freePlaces ∧ (wnd = 0 → k.rcvWnd.toNat ≤ k.rcvQueue.length)

/-- The free places are a positive multiple of 2^16. -/
def FullTurn (k : KCP) : Prop := 0 < k.freePlaces ∧ k.freePlaces % 65536 = 0

theorem wndUnused_toNat (k : KCP) : k.wndUnused.toNat = k.freePlaces % 65536 := by
  unfold wndUnused freePlaces
  split
  · rw [UInt16.toNat_ofNat']
  · rename_i hfull
    rw [Nat.sub_eq_zero_of_le (Nat.le_of_not_lt hfull)]
    rfl

theorem wndUnused_truthful_iff (k : KCP) : k.Truthful k.wndUnused ↔ ¬ k.FullTurn := by
  have hnat := k.wndUnused_toNat
  unfold Truthful FullTurn
  rw [← UInt16.toNat_inj, hnat, UInt16.toNat_zero]
  unfold freePlaces
  constructor
  · intro htrue hturn
    have := htrue.2 hturn.2
    omega
  · intro hturn
    exact ⟨Nat.mod_le _ _, fun hz => by omega⟩

theorem duePushes_wnd {k : KCP} {seg : Segment} {resent : UInt32} {n : Nat} : ∀ {buf : List Segment} {current : UInt32}
    {clk : Clock}, ∀ s ∈ duePushes k seg resent n buf current clk, s.wnd = seg.wnd := by
  intro buf
  induction buf with
  | nil => simp [duePushes]
  | cons x q ih =>
    intro current clk s hs
    rw [duePushes] at hs
    split at hs
    · exact ih s hs
    · split at hs
      · exact ih s hs
      · rcases List.mem_cons.mp hs with rfl | hs
        · rfl
        · exact ih s hs

/-- Every segment of a flush carries the same window. -/
theorem pending_wnd {k : KCP} {ft : FlushType} {clk : Clock} {s : Segment} (hs : s ∈ k.pending ft clk) :
    s.wnd = k.wndUnused := by
  rcases List.mem_append.mp hs with hs | hs
  · rcases List.mem_append.mp hs with hs | hs
    · obtain ⟨a, -, rfl⟩ := List.mem_map.mp hs
      rfl
    · obtain ⟨sn, ts, hp⟩ := k.probeSeg_template
      unfold probeSegs at hs
      rw [hp] at hs
      rcases List.mem_append.mp hs with hs | hs <;>
      · split at hs
        · rw [List.mem_singleton.mp hs]
          rfl
        · cases hs
  · unfold pushSegs at hs
    cases ft with
    | full => exact duePushes_wnd s hs
    | ackOnly => cases hs

/-- **The advertised window is truthful unless it is a full turn of its 16-bit
field**: in every segment of a flush, from every state. -/
theorem flush_truthful_iff {k k' : KCP} {ft : FlushType} {clk : Clock} {out : List Bytes} {nx : UInt32}
    (h : k.flush ft clk = .ok (k', out, nx)) :
    ∃ pss : List (List Segment), out.filter (· ≠ []) = pss.map encodeAll ∧
      ∀ ps ∈ pss, ∀ s ∈ ps, k.Truthful s.wnd ↔ ¬ k.FullTurn := by
  obtain ⟨pss, hout, hflat, -⟩ := flush_packets h
  refine ⟨pss, hout, fun ps hps s hs => ?_⟩
  have hp : s ∈ k.pending ft clk := by
    rw [← hflat]
    exact List.mem_flatten_of_mem hps hs
  rw [pending_wnd hp]
  exact k.wndUnused_truthful_iff

/-- The calls before the flush of the two runs below. -/
def announcing (rcvwnd : Int) : List Op := [.noDelay (-1) (-1) (-1) 1, .wndSize 0 rcvwnd, .send [7]]

/-- With a window of 65535 the header says so. -/
theorem flush_truthful_widest : ∃ k, (machine 1).Reachable k ∧ k.freePlaces = 65535 ∧ ∃ k' out nx s,
    k.flush .full (fun _ => 5) = .ok (k', out, nx) ∧ out = [encodeAll [s]] ∧ s.wnd = 65535 ∧
      ∃ pss : List (List Segment), out.filter (· ≠ []) = pss.map encodeAll ∧
        ∀ ps ∈ pss, ∀ s ∈ ps, k.Truthful s.wnd ↔ ¬ k.FullTurn := by
  obtain ⟨⟨k, k', out, nx⟩, hrun, htest⟩ : ∃ x, (exec (newKCP 1) (announcing 65535) >>= fun k =>
      k.flush .full (fun _ => 5) >>= fun r => .ok (k, r)) = .ok x ∧
      decide (x.1.freePlaces = 65535 ∧ ∃ s ∈ x.2.1.sndBuf, x.2.2.1 = [encodeAll [s]] ∧ s.wnd = 65535) = true :=
    Go.of_test (by decide +kernel)
  obtain ⟨k₁, hexec, hrun⟩ := Go.bind_ok hrun
  obtain ⟨r, hflush, hrun⟩ := Go.bind_ok hrun
  cases hrun
  obtain ⟨hfree, s, -, hout, hwnd⟩ := of_decide_eq_true htest
  exact ⟨k, exec_reachable hexec, hfree, k', out, nx, s, hflush, hout, hwnd, flush_truthful_iff hflush⟩

/-- `WndSize(0, 65536)`: the queue is empty, and the segment sent says that
it has no room. -/
theorem full_turn_closed : ∃ k, (machine 1).Reachable k ∧ k.rcvQueue = [] ∧ k.rcvWnd = 65536 ∧ ∃ k' nx s,
    k.flush .full (fun _ => 5) = .ok (k', [encodeAll [s]], nx) ∧ s.wnd = 0 ∧ ¬ k.Truthful s.wnd := by
  obtain ⟨⟨k, k', out, nx⟩, hrun, htest⟩ : ∃ x, (exec (newKCP 1) (announcing 65536) >>= fun k =>
      k.flush .full (fun _ => 5) >>= fun r => .ok (k, r)) = .ok x ∧
      decide (x.1.rcvQueue = [] ∧ x.1.rcvWnd = 65536 ∧ ∃ s ∈ x.2.1.sndBuf, x.2.2.1 = [encodeAll [s]] ∧ s.wnd = 0) =
        true :=
    Go.of_test (by decide +kernel)
  obtain ⟨k₁, hexec, hrun⟩ := Go.bind_ok hrun
  obtain ⟨r, hflush, hrun⟩ := Go.bind_ok hrun
  cases hrun
  obtain ⟨hq, hw, s, -, rfl, hwnd⟩ := of_decide_eq_true htest
  refine ⟨k, exec_reachable hexec, hq, hw, k', nx, s, hflush, hwnd, fun htrue => ?_⟩
  have hfull := htrue.2 hwnd
  dsimp only at hq hw
  rw [hq, hw] at hfull
  exact absurd hfull (by decide)

/-! ## The acknowledgements -/

theorem unaCount_drop (una : UInt32) (l : List Segment) : unaCount una (l.drop (unaCount una l)) = 0 := by
  induction l with
  | nil => rfl
  | cons s q ih =>
    rw [unaCount]
    split
    · exact ih
    · rename_i hstop
      simp [unaCount, hstop]

theorem firstSn_not_before {n : UInt32} {l : List Segment} (h : unaCount una l = 0) :
    firstSn n l = n ∨ ∃ s ∈ l, firstSn n l = s.sn ∧ ¬ 0 < itimediff una s.sn := by
  cases l with
  | nil => exact .inl rfl
  | cons s q =>
    refine .inr ⟨s, List.mem_cons_self, rfl, fun hpos => ?_⟩
    simp [unaCount, hpos] at h

/-- A send side whose `snd_nxt` is not behind `r`, with all its numbers within
2^30 of `r` and what is buffered before `snd_nxt`. -/
structure Near (r : UInt32) (v : Snd) : Prop where
  nxt : (v.nxt - r).toNat ≤ 2 ^ 30
  within : ∀ s ∈ v.buf, (s.sn - r).toNat ≤ 2 ^ 30 ∨ (r - s.sn).toNat ≤ 2 ^ 30
  before : ∀ s ∈ v.buf, itimediff s.sn v.nxt < 0

/-- In a reachable state only `snd_nxt` matters: the buffer is a run of at
most 65535 numbers that ends there. -/
theorem near_of_sndOk {s : KCP} (h : SndOk s) (hn : (s.sndNxt - r).toNat ≤ 2 ^ 30) : Near r s.snd := by
  have hlen := h.len
  have hnxt := h.nxt
  have hr := r.toNat_lt
  have hu := s.snd.una.toNat_lt
  have hget : ∀ x ∈ s.snd.buf, ∃ i, i < s.snd.buf.length ∧ x.sn = s.snd.una + u32 i := by
    intro x hx
    obtain ⟨i, hi⟩ := List.getElem?_of_mem hx
    exact ⟨i, (List.getElem?_eq_some_iff.mp hi).1, consec_iff.mp h.run i x hi⟩
  replace hn : (s.snd.nxt - r).toNat ≤ 2 ^ 30 := hn
  refine ⟨hn, ?_, ?_⟩
  · intro x hx
    obtain ⟨i, hi, hsn⟩ := hget x hx
    rw [hnxt] at hn
    rw [hsn]
    simp only [UInt32.toNat_sub, UInt32.toNat_add, toNat_u32] at hn ⊢
    omega
  · intro x hx
    obtain ⟨i, hi, hsn⟩ := hget x hx
    rw [itimediff, diff_neg, hsn, hnxt]
    simp only [UInt32.toNat_sub, UInt32.toNat_add, toNat_u32]
    omega

theorem Near.head {v : Snd} (h : Near r v) (wnd : Option UInt32) (una : UInt32) : Near r (v.head wnd una) :=
  ⟨h.nxt, fun s hs => h.within s (List.mem_of_mem_drop hs), fun s hs => h.before s (List.mem_of_mem_drop hs)⟩

theorem Near.ack {v : Snd} (h : Near r v) (sn : UInt32) : Near r (v.ack sn) := by
  unfold Snd.ack
  split
  · exact h
  · have hmark : ∀ s ∈ markAcked sn v.buf, ∃ t ∈ v.buf, s.sn = t.sn := by
      intro s hs
      obtain ⟨i, hi⟩ := List.getElem?_of_mem hs
      obtain ⟨t, ht, hc⟩ := Snd.markAcked_get hi
      refine ⟨t, List.mem_of_getElem? ht, ?_⟩
      rcases hc with rfl | ⟨-, rfl⟩ <;> rfl
    refine ⟨h.nxt, ?_, ?_⟩
    · intro s hs
      obtain ⟨t, ht, hsn⟩ := hmark s hs
      rw [hsn]
      exact h.within t ht
    · intro s hs
      obtain ⟨t, ht, hsn⟩ := hmark s hs
      rw [hsn]
      exact h.before t ht

theorem Near.seg {h : Header} {payload : Bytes} {k k' : KCP} (hn : Near r k.snd)
    (hs : SegSpec pkt h payload k k') : Near r k'.snd := by
  rw [hs.snd]
  split
  · exact (hn.head _ _).ack _
  · exact hn.head _ _

/-- Once `una` has been applied, `snd_una` is between it and `snd_nxt`. -/
theorem Near.una_le {v : Snd} (h : Near una v) (wnd : Option UInt32) :
    ((v.head wnd una).una - una).toNat ≤ ((v.head wnd una).nxt - una).toNat := by
  have hnxt := h.nxt
  show (firstSn v.nxt (v.buf.drop (unaCount una v.buf)) - una).toNat ≤ (v.nxt - una).toNat
  rcases firstSn_not_before (n := v.nxt) (unaCount_drop una v.buf) with hfirst | ⟨s, hs, hfirst, hstop⟩
  · rw [hfirst]
  · -- the oldest segment left is not before `una`, and it is before `snd_nxt`
    have hmem := List.mem_of_mem_drop hs
    have hwithin := h.within s hmem
    have hbefore := h.before s hmem
    rw [itimediff, diff_neg] at hbefore
    rw [itimediff, diff_pos] at hstop
    rw [hfirst]
    have h1 := s.sn.toNat_lt
    have h2 := una.toNat_lt
    have h3 := v.nxt.toNat_lt
    simp only [UInt32.toNat_sub] at hnxt hwithin hbefore hstop ⊢
    omega

/-- An acknowledgement below `una` is below `snd_una` as well, or so far back
that it counts as beyond `snd_nxt`. -/
theorem below_ignored {u n sn : UInt32} (hu : (u - una).toNat ≤ (n - una).toNat) (hn : (n - una).toNat ≤ 2 ^ 30)
    (hsn : itimediff sn una < 0) : itimediff sn u < 0 ∨ 0 ≤ itimediff sn n := by
  rw [itimediff, diff_neg] at *
  rw [itimediff, diff_nonneg]
  rw [toNat_sub_rebase sn u una, toNat_sub_rebase sn n una]
  have := (sn - una).toNat_lt
  omega

/-- Applying a header's window and `una` a second time changes nothing. -/
theorem inputHead_again (k : KCP) (pkt : PacketType) {h g : Header} (hu : g.una = h.una) (hw : g.wnd = h.wnd) :
    (k.inputHead pkt h).1.inputHead pkt g = ((k.inputHead pkt h).1, 0) := by
  cases pkt <;>
  · simp only [inputHead, parseUna, shrinkBuf, hu, hw, reduceCtorEq, if_true, if_false, unaCount_drop, List.drop_zero]

theorem inputSeg_ack {h : Header} {payload : Bytes} {st : InLoop} (hcmd : h.cmd = IKCP_CMD_ACK) :
    inputSeg pkt h payload st = .ok ⟨(((st.k.inputHead pkt h).1.parseAck h.sn).parseFastack h.sn h.ts).1, h.ts, true,
      st.flushSegments || decide (0 < (st.k.inputHead pkt h).2) ||
        (((st.k.inputHead pkt h).1.parseAck h.sn).parseFastack h.sn h.ts).2⟩ :=
  if_pos hcmd

/-- An acknowledgement the filter leaves out: at the peer it does what the
next one in the packet does again. -/
theorem inputSeg_below {t : Segment} {a : AckItem} {st : InLoop} (hcmd : t.cmd = IKCP_CMD_ACK)
    (hn : Near t.una st.k.snd) (hsn : itimediff a.sn t.una < 0) :
    ∃ st', inputSeg pkt (ackSeg t a).head (ackSeg t a).bytes st = .ok st' ∧ ∀ b,
      inputSeg pkt (ackSeg t b).head (ackSeg t b).bytes st' = inputSeg pkt (ackSeg t b).head (ackSeg t b).bytes st := by
  have hreach := hn.una_le (wndOf pkt (ackSeg t a).head)
  have hsnd := inputHead_snd st.k pkt (ackSeg t a).head
  have hagain := fun b => st.k.inputHead_again pkt (h := (ackSeg t a).head) (g := (ackSeg t b).head) rfl rfl
  have hsame : ∀ b, st.k.inputHead pkt (ackSeg t b).head = st.k.inputHead pkt (ackSeg t a).head := fun _ => rfl
  generalize st.k.inputHead pkt (ackSeg t a).head = r at hsnd hagain hsame
  -- neither scan looks at the buffer: `sn` is not in `[snd_una, snd_nxt)`
  have hskip : itimediff a.sn r.1.sndUna < 0 ∨ 0 ≤ itimediff a.sn r.1.sndNxt := by
    rw [show r.1.sndUna = _ from congrArg Snd.una hsnd, show r.1.sndNxt = _ from congrArg Snd.nxt hsnd]
    exact below_ignored hreach hn.nxt hsn
  have hack : r.1.parseAck (ackSeg t a).head.sn = r.1 := if_pos hskip
  have hfast : r.1.parseFastack (ackSeg t a).head.sn (ackSeg t a).head.ts = (r.1, false) := if_pos hskip
  refine ⟨⟨r.1, a.ts, true, st.flushSegments || decide (0 < r.2)⟩, ?_, fun b => ?_⟩
  · rw [inputSeg_ack hcmd, hsame, hack, hfast, Bool.or_false]
    rfl
  · rw [inputSeg_ack hcmd, inputSeg_ack hcmd, hsame]
    dsimp only
    rw [hagain b]
    simp

/-- **Over whole packets**: the acknowledgements the filter leaves do at the
peer what all of them do. -/
theorem inputSegs_filter {t : Segment} (hcmd : t.cmd = IKCP_CMD_ACK) : ∀ {l : List AckItem} {st : InLoop},
    Near t.una st.k.snd →
    inputSegs pkt ((pendingAcks t.una l).map (ackSeg t)) st = inputSegs pkt (l.map (ackSeg t)) st := by
  intro l
  induction l with
  | nil => exact fun _ => rfl
  | cons a rest ih =>
    intro st hn
    rw [pendingAcks]
    split
    · rw [List.map_cons, List.map_cons, inputSegs, inputSegs]
      cases h : inputSeg pkt (ackSeg t a).head (ackSeg t a).bytes st with
      | error e => rfl
      | ok st' => exact ih (hn.seg (inputSeg_spec h))
    · rename_i hskip
      rw [not_or, Int32.not_le] at hskip
      obtain ⟨st', h, hnext⟩ := inputSeg_below hcmd hn hskip.1
      rw [List.map_cons, inputSegs, h, Go.ok_bind, ← ih (hn.seg (inputSeg_spec h))]
      cases hp : pendingAcks t.una rest with
      | nil => exact absurd hp (pendingAcks_ne_nil hskip.2)
      | cons b more => rw [List.map_cons, inputSegs, inputSegs, hnext]

/-- The acknowledgements without the filter. -/
def allAckSegs (k : KCP) : List Segment := k.acklist.map (ackSeg k.template)

theorem allAckSegs_length (k : KCP) : (encodeAll k.allAckSegs).length = IKCP_OVERHEAD * k.acklist.length := by
  unfold allAckSegs
  induction k.acklist with
  | nil => rfl
  | cons a l ih =>
    rw [List.map_cons, encodeAll_cons, List.length_append, ih, Segment.wire_length, List.length_cons, Nat.mul_succ]
    simp only [IKCP_OVERHEAD, Segment.len, Segment.bytes, ackSeg, template, Option.getD, List.length_nil]
    omega

theorem ackSeg_legal (k : KCP) (a : AckItem) : Legal k.conv (ackSeg k.template a) :=
  ⟨rfl, rfl, by simp [Segment.len, Segment.bytes, ackSeg, template]⟩

/-- The loop of `Input` over whole segments and what follows them. -/
theorem inputLoop_front {ws : List Segment} {rest : Bytes} {st : InLoop}
    (hl : ∀ w ∈ ws, Legal st.k.conv w) : inputLoop pkt (encodeAll ws ++ rest).length (encodeAll ws ++ rest) st =
      (inputSegs pkt ws st >>= inputLoop pkt rest.length rest) := by
  have hlen : (encodeAll ws ++ rest).length = ws.length + ((encodeAll ws ++ rest).length - ws.length) := by
    have := encodeAll_length_ge ws
    rw [List.length_append]
    omega
  rw [hlen, inputLoop_append hl]
  congr 1
  funext st₁
  refine inputLoop_stable pkt rest.length _ (Nat.le_refl _) ?_ st₁
  have := encodeAll_length_ge ws
  rw [List.length_append]
  omega

/-- A packet of another conversation is refused at its first header. -/
theorem inputLoop_foreign {w : Segment} {ws : List Segment} {rest : Bytes} {st : InLoop}
    (hc : w.conv ≠ st.k.conv) : inputLoop pkt (encodeAll (w :: ws) ++ rest).length (encodeAll (w :: ws) ++ rest) st =
      .ok (st, some (-1)) := by
  have hcat : encodeAll (w :: ws) ++ rest = w.header ++ (w.bytes ++ (encodeAll ws ++ rest)) := by
    simp [Segment.wire]
  have hlen : 24 ≤ (encodeAll (w :: ws) ++ rest).length := by
    simp only [hcat, List.length_append, Segment.header_length]
    omega
  obtain ⟨n, hn⟩ : ∃ n, (encodeAll (w :: ws) ++ rest).length = n + 1 := ⟨_, (Nat.sub_add_cancel (by omega)).symm⟩
  rw [hn, inputLoop, if_neg (by simp only [IKCP_OVERHEAD]; omega)]
  dsimp only
  rw [hcat, readHeader_encode]
  exact if_pos hc

/-- `Input` on the acknowledgements, with and without the filter. -/
theorem input_filter {k s : KCP} (hn : Near k.rcvNxt s.snd) (hack : k.acklist ≠ []) (rest : Bytes) (pkt : PacketType)
    (nd : Bool) (clk : Clock) : s.input (encodeAll k.ackSegs ++ rest) pkt nd clk =
      s.input (encodeAll k.allAckSegs ++ rest) pkt nd clk := by
  have hshort : ∀ ws : List Segment, ws ≠ [] → ¬ (encodeAll ws ++ rest).length < IKCP_OVERHEAD := by
    intro ws hws
    have hge := encodeAll_length_ge ws
    have := List.length_pos_iff.mpr hws
    rw [List.length_append]
    simp only [IKCP_OVERHEAD]
    omega
  have hne : k.ackSegs ≠ [] := by simpa [ackSegs] using pendingAcks_ne_nil hack
  have hne' : k.allAckSegs ≠ [] := by simpa [allAckSegs] using hack
  have hmem : ∀ w, w ∈ k.ackSegs ∨ w ∈ k.allAckSegs → Legal k.conv w := by
    intro w hw
    rcases hw with hw | hw <;>
    · obtain ⟨a, -, rfl⟩ := List.mem_map.mp hw
      exact ackSeg_legal k a
  have hloop : inputLoop pkt (encodeAll k.ackSegs ++ rest).length (encodeAll k.ackSegs ++ rest) ⟨s, 0, false, false⟩ =
      inputLoop pkt (encodeAll k.allAckSegs ++ rest).length (encodeAll k.allAckSegs ++ rest) ⟨s, 0, false, false⟩ := by
    by_cases hconv : s.conv = k.conv
    · rw [inputLoop_front (fun w hw => hconv ▸ hmem w (.inl hw)),
        inputLoop_front (fun w hw => hconv ▸ hmem w (.inr hw))]
      rw [allAckSegs, ← inputSegs_filter rfl hn]
      rfl
    · obtain ⟨w, ws, he⟩ := List.exists_cons_of_ne_nil hne
      obtain ⟨w', ws', he'⟩ := List.exists_cons_of_ne_nil hne'
      have hw := (hmem w (.inl (he ▸ List.mem_cons_self))).conv
      have hw' := (hmem w' (.inr (he' ▸ List.mem_cons_self))).conv
      rw [he, he', inputLoop_foreign (by rw [hw]; exact Ne.symm hconv),
        inputLoop_foreign (by rw [hw']; exact Ne.symm hconv)]
  have hbody : s.inputBody (encodeAll k.ackSegs ++ rest) pkt clk =
      s.inputBody (encodeAll k.allAckSegs ++ rest) pkt clk := by
    unfold inputBody
    rw [if_neg (hshort _ hne), if_neg (hshort _ hne'), hloop]
  unfold input
  rw [hbody]

/-- Every entry of `acklist` is acknowledged, by itself or by `una`. -/
theorem pendingAcks_cover {l : List AckItem} {a : AckItem} (ha : a ∈ l) :
    a ∈ pendingAcks r l ∨ itimediff a.sn r < 0 := by
  induction l with
  | nil => cases ha
  | cons b rest ih =>
    rw [pendingAcks]
    rcases List.mem_cons.mp ha with rfl | ha
    · split
      · exact .inl List.mem_cons_self
      · rename_i hskip
        exact .inr (Int32.not_le.mp (not_or.mp hskip).1)
    · split
      · rcases ih ha with h | h
        · exact .inl (List.mem_cons_of_mem _ h)
        · exact .inr h
      · exact ih ha

/-- **The ACK filter loses nothing**: the first packet of the flush, which
starts with the acknowledgements the filter leaves, does to the peer exactly
what it would do with all of them in front; and they cover `acklist`. -/
theorem ack_filter_lossless {k k' : KCP} {ft : FlushType} {clk : Clock} {out : List Bytes} {nx : UInt32}
    (h : k.flush ft clk = .ok (k', out, nx)) (hack : k.acklist ≠ [])
    (hfit : (encodeAll k.allAckSegs).length ≤ k.mtu.toNat) :
    (∃ rest more, out = (encodeAll k.ackSegs ++ rest) :: more ∧ ∀ s : KCP, Near k.rcvNxt s.snd → ∀ pkt nd clk',
      s.input (encodeAll k.ackSegs ++ rest) pkt nd clk' = s.input (encodeAll k.allAckSegs ++ rest) pkt nd clk') ∧
      ∀ a ∈ k.acklist, ∃ w ∈ k.ackSegs, w.sn = a.sn ∨ itimediff a.sn w.una < 0 := by
  rw [allAckSegs_length] at hfit
  obtain ⟨rest, more, hout⟩ := flush_first h hack hfit
  refine ⟨⟨rest, more, hout, fun s hn pkt nd clk' => input_filter hn hack rest pkt nd clk'⟩, ?_⟩
  intro a ha
  rcases pendingAcks_cover (r := k.rcvNxt) ha with hin | hold
  · exact ⟨ackSeg k.template a, List.mem_map_of_mem hin, .inl rfl⟩
  · obtain ⟨b, hb⟩ := List.exists_mem_of_ne_nil _ (pendingAcks_ne_nil (r := k.rcvNxt) hack)
    exact ⟨ackSeg k.template b, List.mem_map_of_mem hb, .inr hold⟩

/-- Two segments are acknowledged by one ACK: the sender that had sent both
ends in the same state as with two. -/
theorem ack_filter_lossless_pair : ∃ k s, (machine 1).Reachable k ∧ (machine 1).Reachable s ∧ k.acklist.length = 2 ∧
    k.ackSegs.length = 1 ∧ s.sndBuf.length = 2 ∧ ∃ k' out nx, k.flush .ackOnly (fun _ => 5) = .ok (k', out, nx) ∧
      (∃ rest more, out = (encodeAll k.ackSegs ++ rest) :: more ∧
        s.input (encodeAll k.ackSegs ++ rest) .regular true (fun _ => 9) =
        s.input (encodeAll k.allAckSegs ++ rest) .regular true (fun _ => 9)) ∧
      ∀ a ∈ k.acklist, ∃ w ∈ k.ackSegs, w.sn = a.sn ∨ itimediff a.sn w.una < 0 := by
  obtain ⟨⟨k, s, k', out, nx⟩, hrun, htest⟩ : ∃ x, (exec (newKCP 1) [.input (encodeAll
      [{ conv := 1, cmd := IKCP_CMD_PUSH, sn := 0, data := some [7] },
        { conv := 1, cmd := IKCP_CMD_PUSH, sn := 1, data := some [8] }])
        .regular false (fun _ => 5)] >>= fun k => exec (newKCP 1) [.noDelay (-1) (-1) (-1) 1, .send [7], .send [8],
        .flush .full (fun _ => 3)] >>= fun s => k.flush .ackOnly (fun _ => 5) >>= fun r => .ok (k, s, r)) = .ok x ∧
      decide (x.1.acklist.length = 2 ∧ x.1.ackSegs.length = 1 ∧ x.2.1.sndBuf.length = 2 ∧
        (encodeAll x.1.allAckSegs).length ≤ x.1.mtu.toNat ∧ (x.2.1.sndNxt - x.1.rcvNxt).toNat ≤ 2 ^ 30) = true :=
    Go.of_test (by decide +kernel)
  obtain ⟨k₁, hk, hrun⟩ := Go.bind_ok hrun
  obtain ⟨s₁, hs, hrun⟩ := Go.bind_ok hrun
  obtain ⟨r, hflush, hrun⟩ := Go.bind_ok hrun
  cases hrun
  obtain ⟨hlen, hkept, hbuf, hfit, hnear⟩ := of_decide_eq_true htest
  have hne : k.acklist ≠ [] := List.ne_nil_of_length_eq_add_one hlen
  have hsr := exec_reachable hs
  obtain ⟨⟨rest, more, hout, hpeer⟩, hcover⟩ := ack_filter_lossless hflush hne hfit
  exact ⟨k, s, exec_reachable hk, hsr, hlen, hkept, hbuf, k', out, nx, hflush,
    ⟨rest, more, hout, hpeer s (near_of_sndOk ((sndOk_inductive 1).reachable s hsr) hnear) _ _ _⟩, hcover⟩

end KCP
end KcpGo.L2
