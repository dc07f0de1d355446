import KcpGo.Core.Link
import KcpGo.L3Protocol.SendWindow

/-!
# The send side refines the sender of the link

`TxRel v t`: the send side `v` of a control block, with its 32-bit numbers,
is the sender `t` of a sliding-window link on unbounded counters. While the
link's invariant holds and messages are fresh, the wrapped comparisons of
`parse_una`, `parse_ack` and the admission test are the true ones:

* `TxRel.head`: a header is `hear` (window and una);
* `TxRel.ack`: an ACK marks at most the number it was sent for;
* `TxRel.fillWindow`: phase 4 of `flush` is `fillWindow`.
-/
namespace KcpGo.L3

open KcpGo.L1 KcpGo.L2 KcpGo.Serial
open KcpGo.Link (Bounds Ctrl Data Tx Rx TxStep RxStep TxRun RxRun)

/-- Windows are 16 bits on the wire, a packet arrives within 2^30 numbers,
and an acknowledgement is never due much longer than that. -/
def kcpBounds : Bounds := ⟨65535, 2 ^ 30, 2 ^ 30 + 2 ^ 18⟩

@[simp] theorem kcpBounds_window : kcpBounds.window = 65535 := rfl
@[simp] theorem kcpBounds_fresh : kcpBounds.fresh = 2 ^ 30 := rfl
@[simp] theorem kcpBounds_age : kcpBounds.age = 2 ^ 30 + 2 ^ 18 := rfl

/-- What the receiver is meant to get: the fragment number and the bytes. -/
abbrev Payload := UInt8 × Bytes

def content (s : Segment) : Payload := (s.frg, s.bytes)

abbrev KTx := Tx Payload

abbrev LinkInv (t : KTx) (x : Rx) : Prop := Link.Inv kcpBounds t x

/-- A segment of `snd_buf` and what was numbered there. -/
structure CellRel (t : KTx) (i : Nat) (s : Segment) : Prop where
  payload : ∃ p, t.sent[i]? = some p ∧ s.frg = p.1 ∧ (s.acked = 0 → s.data = some p.2)
  acked : s.acked = 1 ↔ i ∈ t.acked

structure TxRel (v : Snd) (t : KTx) : Prop where
  una : v.una = u32 t.una
  len : v.buf.length + t.una = t.sent.length
  rmt : v.rmtWnd.toNat = t.rmtWnd
  cells : ∀ j s, v.buf[j]? = some s → CellRel t (t.una + j) s

theorem TxRel.nxt {conv : UInt32} {v : Snd} {t : KTx} (h : TxRel v t) (hi : v.Inv conv) :
    v.nxt = u32 t.sent.length := by
  rw [hi.nxt, h.una, u32_add, ← h.len, Nat.add_comm]

/-- The number of the `j`-th segment. -/
theorem TxRel.sn {conv : UInt32} {v : Snd} {t : KTx} (h : TxRel v t) (hi : v.Inv conv) {j : Nat} {s : Segment}
    (hs : v.buf[j]? = some s) : s.sn = u32 (t.una + j) := by
  rw [consec_iff.mp hi.run j s hs, h.una, u32_add]

/-! ## Headers -/

/-- `parse_una` counts the true distance. -/
theorem unaCount_exact {u : Nat} : ∀ {l : List Segment} {a : Nat}, Consec Segment.sn (u32 a) l →
    a ≤ u + 2 ^ 30 → u ≤ a + l.length → l.length ≤ 65535 → KCP.unaCount (u32 u) l = u - a := by
  intro l
  induction l with
  | nil =>
    intro a _ _ hu _
    simp only [List.length_nil] at hu
    simp only [KCP.unaCount]
    omega
  | cons s q ih =>
    intro a hc ha hu hl
    simp only [List.length_cons] at hu hl
    have hd : (itimediff (u32 u) (u32 a)).toInt = (u : Int) - a := diff_ofNat (by omega) (by omega)
    have hpos : 0 < itimediff (u32 u) s.sn ↔ a < u := by
      rw [hc.1, Int32.lt_iff_toInt_lt, hd, Int32.toInt_zero]
      omega
    rw [KCP.unaCount]
    by_cases hlt : a < u
    · rw [if_pos (hpos.mpr hlt), ih (a := a + 1) (by rw [← u32_succ]; exact hc.2) (by omega) (by omega) (by omega)]
      omega
    · rw [if_neg (fun h => hlt (hpos.mp h))]
      omega

/-- A header carries the message `c`. -/
structure HeadRel (h : Header) (c : Ctrl) : Prop where
  una : h.una = u32 c.una
  wnd : h.wnd.toNat = c.wnd

theorem TxRel.head {conv : UInt32} {v : Snd} {t : KTx} {x : Rx} (h : TxRel v t) (hi : v.Inv conv)
    (hl : LinkInv t x) {hd : Header} {c : Ctrl} (hc : c ∈ x.ctrl) (hf : x.rcv ≤ c.una + 2 ^ 30)
    (hh : HeadRel hd c) (pkt : PacketType) :
    TxRel (v.head (KCP.wndOf pkt hd) hd.una) (t.hear c (decide (pkt = .regular)) false) := by
  have h1 := hl.una_le
  have h2 := hl.rcv_le
  have h3 := (hl.ctrl c hc).1
  have hlen := h.len
  have hcount : KCP.unaCount hd.una v.buf = c.una - t.una := by
    rw [hh.una]
    exact unaCount_exact (by rw [← h.una]; exact hi.run) (by omega) (by omega) hi.len
  have hmax : max t.una c.una = t.una + (c.una - t.una) := by omega
  refine ⟨?_, ?_, ?_, ?_⟩
  · rw [Snd.head_una hi, hcount, h.una, u32_add]
    show u32 _ = u32 (max t.una c.una)
    rw [hmax]
  · show (v.buf.drop (KCP.unaCount hd.una v.buf)).length + max t.una c.una = t.sent.length
    rw [hcount, List.length_drop, hmax]
    omega
  · show ((KCP.wndOf pkt hd).getD v.rmtWnd).toNat = if decide (pkt = .regular) = true then c.wnd else t.rmtWnd
    unfold KCP.wndOf
    cases pkt
    · simp only [if_true, Option.getD_some, decide_true]
      rw [UInt16.toNat_toUInt32]
      exact hh.wnd
    · simpa using h.rmt
  · intro j s hs
    have hs' : v.buf[(c.una - t.una) + j]? = some s := by
      have : (v.buf.drop (KCP.unaCount hd.una v.buf))[j]? = some s := hs
      rwa [hcount, List.getElem?_drop] at this
    have hcell := h.cells _ s hs'
    show CellRel _ (max t.una c.una + j) s
    rw [hmax, Nat.add_assoc]
    exact ⟨hcell.payload, hcell.acked⟩

/-! ## Acknowledgements -/

/-- The two numbers are the same when they are equal on the wire. -/
theorem idx_of_sn {t : KTx} {x : Rx} (hl : LinkInv t x) {i j : Nat} (hj : j < t.sent.length) (hu : t.una ≤ j)
    (hi : i < t.sent.length) (ho : t.sent.length ≤ i + 2 ^ 31 + 2 ^ 20) (he : u32 j = u32 i) : j = i := by
  have := hl.win
  simp only [kcpBounds_window] at this
  exact u32_inj he (by omega) (by omega)

theorem TxRel.ack {conv : UInt32} {v : Snd} {t : KTx} {x : Rx} (h : TxRel v t) (hi : v.Inv conv)
    (hl : LinkInv t x) {i : Nat} (hlt : i < t.sent.length) (ho : t.sent.length ≤ i + 2 ^ 31 + 2 ^ 20) :
    ∃ mark : Bool, TxRel (v.ack (u32 i))
      { t with acked := if mark then t.acked ∪ { n | some i = some n } else t.acked } := by
  have unchanged : ∃ mark : Bool, TxRel v
      { t with acked := if mark then t.acked ∪ { n | some i = some n } else t.acked } := ⟨false, h⟩
  unfold Snd.ack
  split
  · exact unchanged
  by_cases hsame : KCP.markAcked (u32 i) v.buf = v.buf
  · rw [hsame]
    exact unchanged
  · -- some segment was marked: it is number `i`
    have hpos : ∀ {j : Nat} {s : Segment}, v.buf[j]? = some s → s.sn = u32 i → t.una + j = i := by
      intro j s hs he
      obtain ⟨hj, -⟩ := List.getElem?_eq_some_iff.mp hs
      have hlen := h.len
      exact idx_of_sn hl (by omega) (by omega) hlt ho ((h.sn hi hs).symm.trans he)
    obtain ⟨j, hj⟩ : ∃ j, (KCP.markAcked (u32 i) v.buf)[j]? ≠ v.buf[j]? := by
      by_contra hall
      exact hsame (List.ext_getElem? fun j => by_contra fun hn => hall ⟨j, hn⟩)
    obtain ⟨s', hs'⟩ : ∃ s', (KCP.markAcked (u32 i) v.buf)[j]? = some s' := by
      cases hm : (KCP.markAcked (u32 i) v.buf)[j]? with
      | some s' => exact ⟨s', rfl⟩
      | none =>
        rw [hm] at hj
        rw [List.getElem?_eq_none_iff, Snd.markAcked_length] at hm
        exact absurd (List.getElem?_eq_none_iff.mpr hm).symm hj
    obtain ⟨s₀, hs₀, hc⟩ := Snd.markAcked_get hs'
    have hji : t.una + j = i := by
      rcases hc with rfl | ⟨he, -⟩
      · exact absurd (hs'.trans hs₀.symm) hj
      · exact hpos hs₀ he
    refine ⟨true, h.una, by simpa using h.len, h.rmt, ?_⟩
    intro j' r' hr'
    obtain ⟨r, hr, hcr⟩ := Snd.markAcked_get hr'
    have hcell := h.cells j' r hr
    simp only [if_true]
    rcases hcr with rfl | ⟨he, rfl⟩
    · refine ⟨hcell.payload, ?_⟩
      rw [hcell.acked]
      constructor
      · exact fun hm => .inl hm
      · rintro (hm | hm)
        · exact hm
        · -- position `j` was changed, so an unchanged one is elsewhere
          exfalso
          have hij : j' = j := by
            have : t.una + j' = i := by simpa using hm
            omega
          subst hij
          exact hj (hr'.trans hr.symm)
    · obtain ⟨p, hp, hf, -⟩ := hcell.payload
      refine ⟨⟨p, hp, hf, fun ha => ?_⟩, fun _ => .inr ?_, fun _ => rfl⟩
      · cases ha
      · have := hpos hr he
        simp [this]

/-! ## Admission -/

theorem TxRel.fillWindow {conv : UInt32} {v : Snd} {t : KTx} {x : Rx} (h : TxRel v t) (hi : v.Inv conv)
    (hl : LinkInv t x) {m : Nat} (hm : m ≤ v.queue.length) :
    TxRel (v.fillWindow conv m) { t with sent := t.sent ++ (v.queue.take m).map content } := by
  have hlen := h.len
  have hml : ((numberFrom conv v.nxt (v.queue.take m)).map Segment.core).length = m := by simp [hm]
  refine ⟨h.una, ?_, h.rmt, ?_⟩
  · show (v.buf ++ _).length + t.una = (t.sent ++ _).length
    simp only [List.length_append, hml, List.length_map, List.length_take]
    omega
  · intro j s hs
    have hs' : (v.buf ++ (numberFrom conv v.nxt (v.queue.take m)).map Segment.core)[j]? = some s := hs
    by_cases hj : j < v.buf.length
    · rw [List.getElem?_append_left hj] at hs'
      have hcell := h.cells j s hs'
      obtain ⟨p, hp, hr⟩ := hcell.payload
      obtain ⟨hlt, -⟩ := List.getElem?_eq_some_iff.mp hp
      exact ⟨⟨p, by rw [List.getElem?_append_left hlt]; exact hp, hr⟩, hcell.acked⟩
    · rw [List.getElem?_append_right (by omega)] at hs'
      have hget : ∀ (b : UInt32) (q : List Segment) (n : Nat) (r : Segment),
          ((numberFrom conv b q).map Segment.core)[n]? = some r →
            ∃ y, q[n]? = some y ∧ r.frg = y.frg ∧ r.data = y.data ∧ r.acked = y.acked := by
        intro b q
        induction q generalizing b with
        | nil => intro n r hr; simp [numberFrom] at hr
        | cons y q ih =>
          intro n r hr
          cases n with
          | zero =>
            simp only [numberFrom, List.map_cons, List.getElem?_cons_zero, Option.some.injEq] at hr
            subst hr
            exact ⟨y, rfl, rfl, rfl, rfl⟩
          | succ n => exact ih (b + 1) n r (by simpa [numberFrom] using hr)
      obtain ⟨y, hy, hf, hd, ha⟩ := hget _ _ _ s hs'
      have hwait := hi.queue y (List.mem_of_mem_take (List.mem_of_getElem? hy))
      have hidx : t.una + j = t.sent.length + (j - v.buf.length) := by omega
      refine ⟨⟨content y, ?_, by simpa [content] using hf, fun _ => ?_⟩, ?_⟩
      · show (t.sent ++ (v.queue.take m).map content)[t.una + j]? = some (content y)
        rw [hidx, List.getElem?_append_right (by omega), Nat.add_sub_cancel_left, List.getElem?_map, hy]
        rfl
      · rw [hd]
        obtain ⟨dt, hdt⟩ := Option.isSome_iff_exists.mp hwait.data
        simp [content, Segment.bytes, hdt]
      · -- a fresh number is not acknowledged yet
        constructor
        · intro h1
          rw [ha, hwait.acked] at h1
          cases h1
        · intro h1
          have hlt : t.una + j < t.sent.length := hl.has_lt (hl.acked _ h1)
          omega

end KcpGo.L3
