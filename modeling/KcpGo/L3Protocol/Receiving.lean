import KcpGo.L3Protocol.Packets
import KcpGo.L3Protocol.Reassembly

/-!
# What a reader gets, and that the order of arrival does not matter

* `peek_recv_agree_iff`: `PeekSize` and `Recv` look at the queue in two loops.
  They agree, and deliver complete messages only, except that the test for
  completeness wraps for a head with `frg = 255` (`peek_wraps`).
* `receive_confluent`: segments of the receive window, fed in any order, any
  number of times and in any packets, leave the same receive side.
-/
namespace KcpGo.L2

open KcpGo.L1 KcpGo.Serial KcpGo.InOrder

/-! ## `PeekSize` and `Recv` -/

namespace KCP

/-- The queue has less than the message its head announces. -/
def Incomplete (k : KCP) : Prop := ∀ s ∈ k.rcvQueue.head?, k.rcvQueue.length < s.frg.toNat + 1

/-- `PeekSize` and `Recv` as they should be on `k`. -/
structure PeekRecv (k : KCP) : Prop where
  negative : k.peekSize < 0 ↔ k.Incomplete
  reads : ¬ k.Incomplete → ∀ room : Nat, k.peekSize ≤ room →
    ∃ e, k.recv room = .ok (e, k.peekSize, (messageSegs k.rcvQueue).flatMap Segment.bytes)
  refuses : ∀ room e r d, k.recv room = .ok (e, r, d) → r = -1 ∨ r = -2 → e = k
  bounds : ∀ room, ∃ r, k.recv room = .ok r

/-- The announcement wraps: the head has `frg = 255`, and its 256 segments
are not all there. -/
def Overflows (k : KCP) : Prop := (∃ s ∈ k.rcvQueue.head?, s.frg = 255) ∧ k.rcvQueue.length < 256

theorem peekSize_neg_iff (k : KCP) : k.peekSize < 0 ↔ k.Incomplete ∧ ¬ k.Overflows := by
  unfold peekSize Incomplete Overflows
  cases hq : k.rcvQueue with
  | nil => simp
  | cons s q =>
    have hfrg := s.frg.toNat_lt
    have hzero : s.frg = 0 ↔ s.frg.toNat = 0 := by rw [← UInt8.toNat_inj, UInt8.toNat_zero]
    have htop : s.frg = 255 ↔ s.frg.toNat = 255 := by rw [← UInt8.toNat_inj]; rfl
    have hsum : (s.frg + 1).toNat = (s.frg.toNat + 1) % 256 := by rw [UInt8.toNat_add, UInt8.toNat_one]
    simp only [List.head?_cons, Option.mem_def, Option.some.injEq, forall_eq', exists_eq_left', hzero, htop, hsum,
      List.length_cons]
    split
    · omega
    · split <;> omega

/-- A destination that is large enough gets the message. -/
theorem recv_reads {k : KCP} {room : Nat} (h : 0 ≤ k.peekSize) (hroom : k.peekSize ≤ room) :
    ∃ e, k.recv room = .ok (e, k.peekSize, (messageSegs k.rcvQueue).flatMap Segment.bytes) := by
  obtain ⟨⟨e, r, d⟩, hr⟩ := k.recv_ok room
  rcases recv_spec hr with ⟨hn, -⟩ | ⟨-, q, p, hm, -, hlen⟩
  · exact absurd ⟨h, hroom⟩ hn
  · have hd := (mergeFragments_spec hm).2
    refine ⟨e, ?_⟩
    rw [hr, peekSize_eq h, hlen, hd]

/-- **`PeekSize` and `Recv` agree unless the fragment number wraps.** -/
theorem peek_recv_agree_iff (k : KCP) : k.PeekRecv ↔ ¬ k.Overflows := by
  have hneg := k.peekSize_neg_iff
  constructor
  · intro h hover
    have hinc : k.Incomplete := by
      intro s hs
      obtain ⟨t, ht, hfrg⟩ := hover.1
      rw [Option.mem_unique hs ht, hfrg]
      exact hover.2
    exact (hneg.mp (h.negative.mpr hinc)).2 hover
  · intro hover
    have hexact : k.peekSize < 0 ↔ k.Incomplete := by simpa [hover] using hneg
    refine ⟨hexact, ?_, ?_, k.recv_ok⟩
    · intro hcomplete room hroom
      exact recv_reads (Int.not_lt.mp fun hlt => hcomplete (hexact.mp hlt)) hroom
    · intro room e r d hr hret
      rcases recv_spec hr with ⟨-, he, -, -⟩ | ⟨-, q, p, -, -, hlen⟩
      · exact he
      · omega

/-- One fragment numbered 255 of a message of 256 is delivered as a message. -/
theorem peek_wraps : ∃ k, (machine 7).Reachable k ∧ k.Incomplete ∧ k.peekSize = 1 ∧
    ∃ e, k.recv 10 = .ok (e, 1, [65]) ∧ ¬ k.PeekRecv := by
  obtain ⟨⟨k, e, r, d⟩, hrun, htest⟩ : ∃ x, (exec (newKCP 7) [.input (encodeAll
      [{ conv := 7, cmd := IKCP_CMD_PUSH, frg := 255, sn := 0, data := some [65] }]) .regular false (fun _ => 5)] >>=
        fun k => k.recv 10 >>= fun x => .ok (k, x)) = .ok x ∧
      decide (x.1.rcvQueue.map Segment.frg = [255] ∧ x.1.peekSize = 1 ∧ x.2.2 = (1, [65])) = true :=
    Go.of_test (by decide +kernel)
  obtain ⟨k₁, hexec, hrun⟩ := Go.bind_ok hrun
  obtain ⟨x, hrecv, hrun⟩ := Go.bind_ok hrun
  cases hrun
  obtain ⟨hq, hpeek, hret⟩ := of_decide_eq_true htest
  cases hret
  obtain ⟨s, hs, hfrg⟩ := List.map_eq_singleton_iff.mp hq
  have hinc : k.Incomplete := by
    intro t ht
    rw [hs] at ht ⊢
    cases ht
    rw [hfrg, List.length_singleton]
    decide
  refine ⟨k, exec_reachable hexec, hinc, hpeek, e, hrecv, fun h => ?_⟩
  have hlt := h.negative.mpr hinc
  rw [show k.peekSize = 1 from hpeek] at hlt
  exact absurd hlt (by decide)

end KCP

/-! ## The order of arrival -/

/-- The segment `p` of a packet as `parse_data` keeps it. -/
def landed (p : Segment) : Segment := KCP.pushed p.head p.bytes

/-- What the receive side `v₀` can deliver or hold once the segments `F` have
come: its heap, and those of `F` whose number was not in it. -/
def InStock (v₀ : Rcv) (F : List Segment) (x : Segment) : Prop :=
  x ∈ v₀.buf.segments ∨ ∃ p ∈ F, x = landed p ∧ v₀.buf.has p.sn = false

/-- `v` has come from `v₀` by the segments `F`. -/
structure Stocked (w : Nat) (v₀ : Rcv) (F : List Segment) (v : Rcv) : Prop where
  inv : v.Inv w
  taken : ∃ moved, v.queue = v₀.queue ++ moved ∧ v.nxt = v₀.nxt + u32 moved.length ∧ Consec Segment.sn v₀.nxt moved ∧
    ∀ x, x ∈ moved ++ v.buf.segments ↔ InStock v₀ F x

section Arrival

variable {w : Nat} {v₀ : Rcv} {ps F : List Segment}

theorem add_u32_toNat_sub (b sn : UInt32) : b + u32 (sn - b).toNat = sn := by
  rw [← UInt32.toNat_inj, UInt32.toNat_add, toNat_u32, UInt32.toNat_sub]
  have := b.toNat_lt
  have := sn.toNat_lt
  omega

theorem stocked_nil (h₀ : v₀.Inv w) : Stocked w v₀ [] v₀ :=
  ⟨h₀, [], by simp, by simp, trivial, by simp [InStock]⟩

/-- One segment under each number. -/
theorem InStock.inj {x y : Segment} (h₀ : v₀.Inv w) (hd : (ps.map Segment.sn).Nodup) (hF : ∀ p ∈ F, p ∈ ps)
    (hx : InStock v₀ F x) (hy : InStock v₀ F y) (he : x.sn = y.sn) : x = y := by
  have hno : ∀ {a p : Segment}, a ∈ v₀.buf.segments → v₀.buf.has p.sn = false → a.sn = p.sn → False := by
    intro a p ha hp hsn
    rw [(h₀.heap.has_iff p.sn).mpr ⟨a, ha, hsn⟩] at hp
    cases hp
  rcases hx with hx | ⟨p, hp, rfl, hpn⟩
  · rcases hy with hy | ⟨q, hq, rfl, hqn⟩
    · exact List.inj_on_of_nodup_map h₀.heap.nodup hx hy he
    · exact (hno hx hqn he).elim
  · rcases hy with hy | ⟨q, hq, rfl, hqn⟩
    · exact (hno hy hpn he.symm).elim
    · rw [List.inj_on_of_nodup_map hd (hF p hp) (hF q hq) he]

/-- A number that is already there adds nothing. -/
theorem InStock.again {x p : Segment} (hd : (ps.map Segment.sn).Nodup) (hF : ∀ q ∈ F, q ∈ ps) (hp : p ∈ ps)
    (h₀ : v₀.Inv w) (hx : InStock v₀ F x) (hsn : x.sn = p.sn) (y : Segment) :
    InStock v₀ (F ++ [p]) y ↔ InStock v₀ F y := by
  constructor
  · intro hy
    rcases hy with hy | ⟨q, hq, rfl, hqn⟩
    · exact .inl hy
    · rcases List.mem_append.mp hq with hq | hq
      · exact .inr ⟨q, hq, rfl, hqn⟩
      · rw [List.mem_singleton.mp hq] at hqn ⊢
        rcases hx with hx | ⟨r, hr, rfl, -⟩
        · rw [(h₀.heap.has_iff p.sn).mpr ⟨x, hx, hsn⟩] at hqn
          cases hqn
        · have he : r = p := List.inj_on_of_nodup_map hd (hF r hr) hp hsn
          exact .inr ⟨p, he ▸ hr, rfl, hqn⟩
  · intro hy
    rcases hy with hy | ⟨q, hq, hyq, hqn⟩
    · exact .inl hy
    · exact .inr ⟨q, List.mem_append_left _ hq, hyq, hqn⟩

/-- The move loop takes from the heap what continues the queue. -/
theorem stocked_of_move {v v' : Rcv} {moved more : List Segment} (hm : MoveSpec w v v' more) (hlen : v.queue.length ≤ w)
    (hwnd : v.wnd.toNat = w) (hq : v.queue = v₀.queue ++ moved) (hn : v.nxt = v₀.nxt + u32 moved.length)
    (hrun : Consec Segment.sn v₀.nxt moved) (hmem : ∀ x, x ∈ moved ++ v.buf.segments ↔ InStock v₀ F x) :
    Stocked w v₀ F v' := by
  refine ⟨hm.inv hlen hwnd, moved ++ more, ?_, ?_, ?_, fun x => ?_⟩
  · rw [hm.queue, hq, List.append_assoc]
  · rw [hm.nxt, hn, add_u32_assoc, List.length_append]
  · exact hrun.append (hn ▸ hm.run)
  · rw [← hmem x, List.append_assoc]
    exact (hm.perm.append_left moved).mem_iff

/-- A number of the window that starts at `b`, seen from `m` places after `b`. -/
theorem window_cases {b wnd : UInt32} {m : Nat} (sn : UInt32) (hw : wnd.toNat < 2 ^ 31) (hm : m ≤ wnd.toNat)
    (hsn : (sn - b).toNat < wnd.toNat) :
    (m ≤ (sn - b).toNat → itimediff sn (b + u32 m + wnd) < 0) ∧
      (0 ≤ itimediff sn (b + u32 m) ↔ m ≤ (sn - b).toNat) := by
  rw [itimediff, itimediff, diff_neg, diff_nonneg]
  have h1 := sn.toNat_lt
  have h2 := b.toNat_lt
  simp only [UInt32.toNat_sub, UInt32.toNat_add, toNat_u32] at hsn ⊢
  constructor
  · intro hle
    omega
  · omega

/-- **One PUSH segment of the window**, whether it is stored, a repeat or old. -/
theorem Stocked.push {k k' : KCP} {p : Segment} (hw : w < 2 ^ 31) (h₀ : v₀.Inv w) (hd : (ps.map Segment.sn).Nodup)
    (hwin : ∀ q ∈ ps, (q.sn - v₀.nxt).toNat < w) (hF : ∀ q ∈ F, q ∈ ps) (hp : p ∈ ps) (h : Stocked w v₀ F k.rcv)
    (hs : KCP.PushSpec k p.head p.bytes k') : Stocked w v₀ (F ++ [p]) k'.rcv := by
  obtain ⟨moved, hq, hn, hrun, hmem⟩ := h.taken
  have hwnd : k.rcvWnd.toNat = w := h.inv.wnd
  have hlen : k.rcvQueue.length ≤ w := h.inv.queue
  have hmoved : moved.length ≤ w := by
    have hcat := congrArg List.length hq
    rw [List.length_append] at hcat
    have : k.rcv.queue.length ≤ w := h.inv.queue
    omega
  have hpos := window_cases p.sn (hwnd ▸ hw) (hwnd ▸ hmoved) (hwnd ▸ hwin p hp)
  replace hn : k.rcvNxt = v₀.nxt + u32 moved.length := hn
  rw [← hn] at hpos
  -- a number that was taken before
  have hold : (p.sn - v₀.nxt).toNat < moved.length → Stocked w v₀ (F ++ [p]) k.rcv := by
    intro hlt
    have hget := List.getElem?_eq_getElem hlt
    have hin := (hmem _).mp (List.mem_append_left _ (List.getElem_mem hlt))
    have hsn : (moved[(p.sn - v₀.nxt).toNat]).sn = p.sn := by
      rw [consec_iff.mp hrun _ _ hget]
      exact add_u32_toNat_sub v₀.nxt p.sn
    exact ⟨h.inv, moved, hq, hn, hrun, fun x => (hmem x).trans (InStock.again hd hF hp h₀ hin hsn x).symm⟩
  cases hs with
  | beyond hb =>
    refine hold (Nat.lt_of_not_le fun hle => ?_)
    exact absurd (hpos.1 hle) (Int32.not_lt.mpr hb)
  | old hb ho =>
    refine hold (Nat.lt_of_not_le fun hle => ?_)
    exact absurd (hpos.2.mpr hle) (Int32.not_le.mpr ho)
  | repeated hb hnew hr =>
    obtain ⟨x, hx, hsn⟩ := (h.inv.heap.has_iff p.sn).mp hr
    have hin := (hmem x).mp (List.mem_append_right _ hx)
    obtain ⟨more, hm⟩ := KCP.moveAll_spec (k := k.ackPush p.head.sn p.head.ts) (Nat.le_of_lt hw) h.inv.heap
    exact stocked_of_move hm hlen hwnd hq hn hrun fun y => (hmem y).trans (InStock.again hd hF hp h₀ hin hsn y).symm
  | stored hb hnew hr =>
    have hge := hpos.2.mp hnew
    -- its number was not in the heap of `v₀` either: it would have been taken since
    have hfresh : v₀.buf.has p.sn = false := by
      by_contra hhas
      obtain ⟨y, hy, hsn⟩ := (h₀.heap.has_iff p.sn).mp (Bool.not_eq_false _ ▸ hhas)
      rcases List.mem_append.mp ((hmem y).mpr (.inl hy)) with hin | hin
      · obtain ⟨i, hi⟩ := List.getElem?_of_mem hin
        have hlt := (List.getElem?_eq_some_iff.mp hi).1
        have hnum := consec_iff.mp hrun i y hi
        rw [hsn] at hnum
        rw [hnum, add_u32_sub _ (by omega)] at hge
        omega
      · have : k.rcvBuf.has p.sn = true := (h.inv.heap.has_iff p.sn).mpr ⟨y, hin, hsn⟩
        rw [show k.rcvBuf.has p.sn = false from hr] at this
        cases this
    have hkey : SegHeap.key k.rcvNxt (landed p) < w := by
      rw [← hwnd]
      exact key_lt_window (by omega) hb hnew
    have hheap : SegHeap.Inv k.rcvNxt w (k.rcvBuf.push (landed p)) :=
      SegHeap.Inv.push h.inv.heap (Nat.le_of_lt hw) hkey hr
    obtain ⟨more, hm⟩ := KCP.moveAll_spec
      (k := { k.ackPush p.head.sn p.head.ts with rcvBuf := k.rcvBuf.push (landed p) })
      (Nat.le_of_lt hw) hheap
    refine stocked_of_move hm hlen hwnd hq hn hrun fun x => ?_
    have hpush : (k.rcvBuf.push (landed p)).segments.Perm (landed p :: k.rcvBuf.segments) :=
      BinHeap.push_perm SegHeap.less k.rcvBuf.segments (landed p)
    have hadd : InStock v₀ (F ++ [p]) x ↔ InStock v₀ F x ∨ x = landed p := by
      unfold InStock
      constructor
      · intro hx
        rcases hx with hx | ⟨q, hq, hxq, hqn⟩
        · exact .inl (.inl hx)
        · rcases List.mem_append.mp hq with hq | hq
          · exact .inl (.inr ⟨q, hq, hxq, hqn⟩)
          · exact .inr (List.mem_singleton.mp hq ▸ hxq)
      · intro hx
        rcases hx with (hx | ⟨q, hq, hxq, hqn⟩) | hx
        · exact .inl hx
        · exact .inr ⟨q, List.mem_append_left _ hq, hxq, hqn⟩
        · exact .inr ⟨p, by simp, hx, hfresh⟩
    rw [hadd, ← hmem x]
    show x ∈ moved ++ (k.rcvBuf.push (landed p)).segments ↔ x ∈ moved ++ k.rcvBuf.segments ∨ x = landed p
    rw [(hpush.append_left moved).mem_iff]
    simp only [List.mem_append, List.mem_cons]
    rw [or_comm (a := x = landed p), or_assoc]

/-- The segments of a packet. -/
theorem Stocked.segs {pkt : PacketType} (hw : w < 2 ^ 31) (h₀ : v₀.Inv w) (hd : (ps.map Segment.sn).Nodup)
    (hwin : ∀ q ∈ ps, (q.sn - v₀.nxt).toNat < w) (hpush : ∀ q ∈ ps, q.cmd = IKCP_CMD_PUSH) :
    ∀ {ws F : List Segment} {st st' : InLoop}, KCP.inputSegs pkt ws st = .ok st' →
      (∀ q ∈ ws, q ∈ ps) → (∀ q ∈ F, q ∈ ps) →
      Stocked w v₀ F st.k.rcv → Stocked w v₀ (F ++ ws) st'.k.rcv := by
  intro ws
  induction ws with
  | nil =>
    intro F st st' h _ _ hst
    cases h
    rw [List.append_nil]
    exact hst
  | cons p ws ih =>
    intro F st st' h hws hF hst
    obtain ⟨st₁, h1, h⟩ := Go.bind_ok h
    have hp := hws p List.mem_cons_self
    obtain ⟨k₁, hr, -, hspec⟩ := (KCP.inputSeg_spec h1).push (hpush p hp)
    have hst₁ : Stocked w v₀ (F ++ [p]) st₁.k.rcv := Stocked.push hw h₀ hd hwin hF hp (hr ▸ hst) hspec
    have hF₁ : ∀ q ∈ F ++ [p], q ∈ ps := by
      intro q hq
      rcases List.mem_append.mp hq with hq | hq
      · exact hF q hq
      · rw [List.mem_singleton.mp hq]
        exact hp
    rw [List.append_cons]
    exact ih h (fun q hq => hws q (List.mem_cons_of_mem _ hq)) hF₁ hst₁

end Arrival

/-- A packet as it is handed to `Input`. -/
structure Arrival where
  segs : List Segment
  pkt : PacketType
  ackNoDelay : Bool
  clk : Clock

def Arrival.op (a : Arrival) : Op := .input (encodeAll a.segs) a.pkt a.ackNoDelay a.clk

/-- The packets consist of segments of `ps`, and each of these is in one. -/
structure Delivers (ps : List Segment) (as : List Arrival) : Prop where
  from_set : ∀ a ∈ as, ∀ p ∈ a.segs, p ∈ ps
  each : ∀ p ∈ ps, ∃ a ∈ as, p ∈ a.segs

section

variable {w : Nat} {v₀ : Rcv} {ps : List Segment}

/-- One packet: the flush at the end of `Input` leaves the receive side alone. -/
theorem Stocked.input {k k' : KCP} {o : Out} {F : List Segment} {a : Arrival} (hw : w < 2 ^ 31) (h₀ : v₀.Inv w)
    (hd : (ps.map Segment.sn).Nodup) (hwin : ∀ q ∈ ps, (q.sn - v₀.nxt).toNat < w)
    (hlegal : ∀ q ∈ ps, q.cmd = IKCP_CMD_PUSH ∧ KCP.Legal k.conv q) (ha : ∀ q ∈ a.segs, q ∈ ps) (hF : ∀ q ∈ F, q ∈ ps)
    (hst : Stocked w v₀ F k.rcv) (h : step k a.op = .ok (k', o)) :
    Stocked w v₀ (F ++ a.segs) k'.rcv ∧ k'.conv = k.conv := by
  obtain ⟨e, hb, hcase⟩ := step_split h
  have hbody : Stocked w v₀ (F ++ a.segs) e.rcv ∧ e.conv = k.conv := by
    cases hb with
    | input hin =>
      rcases KCP.inputBody_spec hin with ⟨hshort, rfl, -⟩ | ⟨-, st, hl, hsame, -⟩
      · have hge := encodeAll_length_ge a.segs
        have hnil : a.segs = [] := List.eq_nil_of_length_eq_zero (by simp only [IKCP_OVERHEAD] at hshort; omega)
        rw [hnil, List.append_nil]
        exact ⟨hst, rfl⟩
      · rw [KCP.inputLoop_encodeAll (fun q hq => (hlegal q (ha q hq)).2)
          (by have := encodeAll_length_ge a.segs; omega)] at hl
        obtain ⟨st₁, hsegs, hl⟩ := Go.bind_ok hl
        cases hl
        have hkeep := KCP.inputSegs_keeps (P := fun x => x.conv = k.conv) hsegs
          (fun _ _ _ _ hs hc => (congrArg Cfg.conv hs.cfg).trans hc) rfl
        rw [hsame.rcv, show e.conv = st.k.conv from congrArg Cfg.conv hsame.cfg]
        exact ⟨Stocked.segs hw h₀ hd hwin (fun q hq => (hlegal q hq).1) hsegs ha hF hst, hkeep⟩
    | idle hop _ => cases hop
  rcases hcase with ⟨rfl, -, -⟩ | ⟨-, ft, clk, nx, hf⟩
  · exact hbody
  · obtain ⟨m, hm⟩ := KCP.flush_spec hf
    rw [hm.rcv, show k'.conv = e.conv from congrArg Cfg.conv hm.cfg]
    exact hbody

/-- All the packets. -/
theorem Stocked.feed (hw : w < 2 ^ 31) (h₀ : v₀.Inv w) (hd : (ps.map Segment.sn).Nodup)
    (hwin : ∀ q ∈ ps, (q.sn - v₀.nxt).toNat < w) : ∀ {as : List Arrival} {F : List Segment} {k k' : KCP},
    exec k (as.map Arrival.op) = .ok k' → (∀ q ∈ ps, q.cmd = IKCP_CMD_PUSH ∧ KCP.Legal k.conv q) →
    (∀ a ∈ as, ∀ q ∈ a.segs, q ∈ ps) → (∀ q ∈ F, q ∈ ps) → Stocked w v₀ F k.rcv →
      Stocked w v₀ (F ++ as.flatMap Arrival.segs) k'.rcv := by
  intro as
  induction as with
  | nil =>
    intro F k k' h _ _ _ hst
    cases h
    rw [List.flatMap_nil, List.append_nil]
    exact hst
  | cons a as ih =>
    intro F k k' h hlegal has hF hst
    obtain ⟨⟨k₁, o⟩, h1, h⟩ := Go.bind_ok h
    have ha := has a List.mem_cons_self
    obtain ⟨hst₁, hconv⟩ := Stocked.input hw h₀ hd hwin hlegal ha hF hst h1
    rw [List.flatMap_cons, ← List.append_assoc]
    refine ih h (by rw [hconv]; exact hlegal) (fun b hb => has b (List.mem_cons_of_mem _ hb)) ?_ hst₁
    intro q hq
    rcases List.mem_append.mp hq with hq | hq
    · exact hF q hq
    · exact ha q hq

/-- Of two receive sides with the same stock, neither can have taken less: its
queue is full, or the next number is missing. -/
theorem taken_not_less {v₁ v₂ : Rcv} {m₁ m₂ : List Segment} (h₁ : v₁.Inv w) (h₂ : v₂.Inv w) (hw : w < 2 ^ 31)
    (hq₁ : v₁.queue = v₀.queue ++ m₁) (hn₁ : v₁.nxt = v₀.nxt + u32 m₁.length) (hr₁ : Consec Segment.sn v₀.nxt m₁)
    (hq₂ : v₂.queue = v₀.queue ++ m₂) (hr₂ : Consec Segment.sn v₀.nxt m₂)
    (hsame : ∀ x, x ∈ m₂ ++ v₂.buf.segments → x ∈ m₁ ++ v₁.buf.segments) : m₂.length ≤ m₁.length := by
  have hl₁ := congrArg List.length hq₁
  have hl₂ := congrArg List.length hq₂
  have hle₁ := h₁.queue
  have hle₂ := h₂.queue
  rw [List.length_append] at hl₁ hl₂
  refine Nat.le_of_not_lt fun hlt => ?_
  obtain ⟨x, hx, hsn⟩ := next_in_rest hr₁ hr₂ hsame hlt (by omega)
  rw [← hn₁] at hsn
  have hwnd := h₁.wnd
  rcases h₁.settled with hfull | hno
  · omega
  · rw [(h₁.heap.has_iff _).mpr ⟨x, hx, hsn⟩] at hno
    cases hno

/-- The window of the heap starts after what was taken. -/
theorem not_held_of_taken {b : UInt32} {m : List Segment} {h : SegHeap} {x : Segment}
    (hw : w < 2 ^ 31) (hlen : m.length ≤ w)
    (hrun : Consec Segment.sn b m) (hx : x ∈ m) (hh : SegHeap.Inv (b + u32 m.length) w h) : x ∉ h.segments := by
  intro hin
  have hkey := hh.window x hin
  obtain ⟨i, hi⟩ := List.getElem?_of_mem hx
  have hlt := (List.getElem?_eq_some_iff.mp hi).1
  rw [SegHeap.key, consec_iff.mp hrun i x hi] at hkey
  have := b.toNat_lt
  simp only [UInt32.toNat_sub, UInt32.toNat_add, toNat_u32] at hkey
  omega

/-- What was taken out of a stock depends on the stock alone. -/
theorem Stocked.unique {F₁ F₂ : List Segment} {v₁ v₂ : Rcv} (hw : w < 2 ^ 31) (h₀ : v₀.Inv w)
    (hd : (ps.map Segment.sn).Nodup)
    (hF₁ : ∀ q, q ∈ F₁ ↔ q ∈ ps) (hF₂ : ∀ q, q ∈ F₂ ↔ q ∈ ps) (h₁ : Stocked w v₀ F₁ v₁) (h₂ : Stocked w v₀ F₂ v₂) :
    v₁.nxt = v₂.nxt ∧ v₁.queue = v₂.queue ∧ v₁.buf.segments.Perm v₂.buf.segments := by
  obtain ⟨m₁, hq₁, hn₁, hr₁, hm₁⟩ := h₁.taken
  obtain ⟨m₂, hq₂, hn₂, hr₂, hm₂⟩ := h₂.taken
  have hsame : ∀ x, x ∈ m₁ ++ v₁.buf.segments ↔ x ∈ m₂ ++ v₂.buf.segments := by
    intro x
    rw [hm₁, hm₂]
    simp only [InStock, hF₁, hF₂]
  have hinj : ∀ x ∈ m₁ ++ v₁.buf.segments, ∀ y ∈ m₁ ++ v₁.buf.segments, x.sn = y.sn → x = y := fun x hx y hy =>
    InStock.inj h₀ hd (fun q hq => (hF₁ q).mp hq) ((hm₁ x).mp hx) ((hm₁ y).mp hy)
  have hle := taken_not_less h₁.inv h₂.inv hw hq₁ hn₁ hr₁ hq₂ hr₂ fun x hx => (hsame x).mpr hx
  have hge := taken_not_less h₂.inv h₁.inv hw hq₂ hn₂ hr₂ hq₁ hr₁ fun x hx => (hsame x).mp hx
  obtain rfl : m₁ = m₂ :=
    (taken_initial hr₁ hr₂ (fun x hx => (hsame x).mpr hx) hinj hge).eq_of_length (Nat.le_antisymm hge hle)
  refine ⟨hn₁.trans hn₂.symm, hq₁.trans hq₂.symm, ?_⟩
  -- the same run taken from the same stock leaves the same rest
  have hlen : m₁.length ≤ w := by
    have hcat := congrArg List.length hq₁
    have := h₁.inv.queue
    rw [List.length_append] at hcat
    omega
  have hrest : ∀ {v v' : Rcv}, v.Inv w → v.nxt = v₀.nxt + u32 m₁.length →
      (∀ x, x ∈ m₁ ++ v.buf.segments → x ∈ m₁ ++ v'.buf.segments) → ∀ x ∈ v.buf.segments, x ∈ v'.buf.segments := by
    intro v v' hv hn hsub x hx
    rcases List.mem_append.mp (hsub x (List.mem_append_right _ hx)) with hin | hin
    · exact absurd hx (not_held_of_taken hw hlen hr₁ hin (hn ▸ hv.heap))
    · exact hin
  rw [List.perm_ext_iff_of_nodup h₁.inv.heap.nodup.of_map h₂.inv.heap.nodup.of_map]
  exact fun x => ⟨hrest h₁.inv hn₁ (fun x hx => (hsame x).mp hx) x, hrest h₂.inv hn₂ (fun x hx => (hsame x).mpr hx) x⟩

end

/-- **Receiving is order-independent**: whatever the order, the repetitions and
the packets in which the segments `ps` of the window arrive, the receive side
ends the same. -/
theorem receive_confluent (conv w : UInt32) (hw : w.toNat < 2 ^ 31) (s : Recvd) (hr : (receiver conv w).Reachable s)
    (ps : List Segment) (hd : (ps.map Segment.sn).Nodup) (hwin : ∀ p ∈ ps, (p.sn - s.kcp.rcvNxt).toNat < w.toNat)
    (hlegal : ∀ p ∈ ps, p.cmd = IKCP_CMD_PUSH ∧ KCP.Legal s.kcp.conv p) (as bs : List Arrival) (ha : Delivers ps as)
    (hb : Delivers ps bs) (k₁ k₂ : KCP) (h₁ : exec s.kcp (as.map Arrival.op) = .ok k₁)
    (h₂ : exec s.kcp (bs.map Arrival.op) = .ok k₂) :
    k₁.rcvNxt = k₂.rcvNxt ∧ k₁.rcvQueue = k₂.rcvQueue ∧ k₁.rcvBuf.segments.Perm k₂.rcvBuf.segments := by
  have h₀ := ((receiver_inductive conv w hw).reachable s hr).1
  have hstocked : ∀ {cs : List Arrival} {k : KCP}, Delivers ps cs → exec s.kcp (cs.map Arrival.op) = .ok k →
      Stocked w.toNat s.kcp.rcv (cs.flatMap Arrival.segs) k.rcv := by
    intro cs k hc h
    exact Stocked.feed (F := []) hw h₀ hd hwin h hlegal hc.from_set (by simp) (stocked_nil h₀)
  have hmem : ∀ {cs : List Arrival}, Delivers ps cs → ∀ q, q ∈ cs.flatMap Arrival.segs ↔ q ∈ ps := by
    intro cs hc q
    rw [List.mem_flatMap]
    constructor
    · intro ⟨a, has, hq⟩
      exact hc.from_set a has q hq
    · exact hc.each q
  exact Stocked.unique hw h₀ hd (hmem ha) (hmem hb) (hstocked ha h₁) (hstocked hb h₂)

/-- Two segments in order, and in one packet the wrong way round with one of
them twice. -/
theorem receive_confluent_reversed : ∃ (x y : Segment) (k₁ k₂ : KCP) (f : List Segment → Op),
    exec { newKCP 7 with rcvWnd := 2 } [f [x], f [y]] = .ok k₁ ∧
      exec { newKCP 7 with rcvWnd := 2 } [f [y, x, y]] = .ok k₂ ∧
      k₁.rcvQueue.map Segment.sn = [0, 1] ∧ k₁.rcvNxt = k₂.rcvNxt ∧ k₁.rcvQueue = k₂.rcvQueue ∧
      k₁.rcvBuf.segments.Perm k₂.rcvBuf.segments := by
  let x : Segment := { conv := 7, cmd := IKCP_CMD_PUSH, wnd := 9, sn := 0, data := some [65] }
  let y : Segment := { conv := 7, cmd := IKCP_CMD_PUSH, wnd := 9, sn := 1, data := some [66] }
  let f : List Segment → Arrival := fun ws => ⟨ws, .regular, false, fun _ => 0⟩
  obtain ⟨k₁, h₁, hq⟩ : ∃ k, exec { newKCP 7 with rcvWnd := 2 } ([f [x], f [y]].map Arrival.op) = .ok k ∧
      decide (k.rcvQueue.map Segment.sn = [0, 1]) = true := Go.of_test (by decide +kernel)
  obtain ⟨k₂, h₂, -⟩ : ∃ k, exec { newKCP 7 with rcvWnd := 2 } ([f [y, x, y]].map Arrival.op) = .ok k ∧ true = true :=
    Go.of_test (by decide +kernel)
  refine ⟨x, y, k₁, k₂, fun ws => (f ws).op, h₁, h₂, of_decide_eq_true hq, ?_⟩
  have hr : (receiver 7 2).Reachable ⟨{ newKCP 7 with rcvWnd := 2 }, []⟩ := ⟨_, [], ⟨rfl, rfl⟩, .nil _⟩
  refine receive_confluent 7 2 (by decide) _ hr [x, y] (by decide) (by decide) ?_
    [f [x], f [y]] [f [y, x, y]] ?_ ?_ k₁ k₂ h₁ h₂
  · intro p hp
    rcases List.mem_pair.mp hp with rfl | rfl <;> exact ⟨rfl, rfl, rfl, by decide⟩
  · exact ⟨by simp [f], by simp [f]⟩
  · exact ⟨by simp [f], by simp [f]⟩

end KcpGo.L2
