import KcpGo.L3Protocol.Refine

/-!
# Acknowledgements are sound

A number that a sender has assigned is either still in its `snd_buf`, not
acknowledged and with its data, or it has reached the other side
(`ack_sound`). The link keeps "acknowledged implies accepted" (`Link.Inv`);
here it is read back into the two control blocks.
-/
namespace KcpGo.L3

open KcpGo.L1 KcpGo.L2 KcpGo.Serial
open KcpGo.Link (Rx)

/-- `r` is the segment numbered as `s`, with its data. -/
def Carried (s r : Segment) : Prop := r.sn = s.sn ∧ r.frg = s.frg ∧ r.bytes = s.bytes

instance (s r : Segment) : Decidable (Carried s r) := inferInstanceAs (Decidable (_ ∧ _ ∧ _))

/-- Number `i`, sent as `s`, is in `snd_buf`, not acknowledged, with its data. -/
def Held (x : End) (i : Nat) (s : Segment) : Prop :=
  ∃ j r, i = x.cnt.una + j ∧ x.kcp.sndBuf[j]? = some r ∧ Carried s r ∧ r.acked = 0 ∧ r.data = some s.bytes

/-- Number `i`, sent as `s`, is in `rcv_buf`, in `rcv_queue`, or was taken by
`Recv`. -/
def Accepted (x : End) (i : Nat) (s : Segment) : Prop :=
  (x.cnt.rcv ≤ i ∧ ∃ r ∈ x.kcp.rcvBuf.segments, Carried s r) ∨
    (∃ j r, i = x.popped.length + j ∧ x.kcp.rcvQueue[j]? = some r ∧ Carried s r) ∨
    ∃ r, x.popped[i]? = some r ∧ Carried s r

section Read

variable {conv : UInt32} {F F₂ : Prop} {t₂ t : KTx} {x₂ x : Rx} {a b : End}

theorem carried_of {i : Nat} {s r : Segment} (hs : s.sn = u32 i) (hr : r.sn = u32 i) (hc : content r = content s) :
    Carried s r := by
  have h1 := congrArg Prod.fst hc
  have h2 := congrArg Prod.snd hc
  exact ⟨hr.trans hs.symm, h1, h2⟩

/-- What has reached the link's receiver has reached the endpoint. -/
theorem EndRel.accepted (h : EndRel conv F t₂ x₂ b t x) {i : Nat} {s : Segment} (hs : s.sn = u32 i)
    (hp : t₂.sent[i]? = some (content s)) (hi : x.Has i) : Accepted b i s := by
  have htaken := h.popped_length
  rcases hi with hlt | hst
  · right
    by_cases hpop : i < x.taken
    · -- already read
      right
      have hget : (b.popped.map content)[i]? = some (content s) := by
        rw [h.popped, List.getElem?_take, if_pos hpop]
        exact hp
      rw [List.getElem?_map] at hget
      obtain ⟨r, hr, hc⟩ := Option.map_eq_some_iff.mp hget
      have hsn := consec_iff.mp h.order i r hr
      rw [UInt32.zero_add] at hsn
      exact ⟨r, hr, carried_of hs hsn hc⟩
    · left
      have hq : b.kcp.rcvQueue.map content = (t₂.sent.take x.rcv).drop x.taken := h.tied.rcv.queue
      have hget : (b.kcp.rcvQueue.map content)[i - x.taken]? = some (content s) := by
        rw [hq, List.getElem?_drop, List.getElem?_take, if_pos (by omega), Nat.add_sub_cancel' (by omega)]
        exact hp
      rw [List.getElem?_map] at hget
      obtain ⟨r, hr, hc⟩ := Option.map_eq_some_iff.mp hget
      have hsn := consec_iff.mp h.tied.rcv.order (i - x.taken) r hr
      rw [u32_add, Nat.add_sub_cancel' (by omega)] at hsn
      exact ⟨i - x.taken, r, by omega, hr, carried_of hs hsn hc⟩
  · -- ahead of the next number: in the heap
    left
    have hb := h.tied.bwd.stored i hst
    have hcnt : b.cnt.rcv = x.rcv := congrArg Counters.rcv h.cnt
    obtain ⟨r, hr, hsn⟩ := (h.tied.rcv.heap.has_iff _).mp (h.tied.rcv.stored i hst)
    obtain ⟨j, hj, e1, e2⟩ := h.tied.rcv.segs r hr
    have hij : j = i := span_inj h.tied.bwd (h.tied.bwd.stored j hj) hb (e1.symm.trans hsn)
    subst hij
    rw [hp] at e2
    exact ⟨by omega, r, hr, carried_of hs hsn (Option.some.inj e2).symm⟩

/-- What the link's sender has not heard acknowledged is in the buffer. -/
theorem EndRel.held (h : EndRel conv F t₂ x₂ a t x) {i : Nat} {s : Segment} (hs : s.sn = u32 i)
    (hp : t.sent[i]? = some (content s)) (hu : t.una ≤ i) (ha : i ∉ t.acked) : Held a i s := by
  have hlen : a.kcp.sndBuf.length + t.una = t.sent.length := by
    have := h.tied.snd.len
    simpa [KCP.snd] using this
  obtain ⟨hlt, -⟩ := List.getElem?_eq_some_iff.mp hp
  obtain ⟨r, hr⟩ : ∃ r, a.kcp.sndBuf[i - t.una]? = some r := ⟨_, List.getElem?_eq_getElem (by omega)⟩
  have hr' : a.kcp.snd.buf[i - t.una]? = some r.core := by simp [KCP.snd, hr]
  have hidx : t.una + (i - t.una) = i := Nat.add_sub_cancel' hu
  have hcell := h.tied.snd.cells _ _ hr'
  have hsn : r.core.sn = u32 (t.una + (i - t.una)) := h.tied.snd.sn h.tied.ok hr'
  rw [hidx] at hcell hsn
  obtain ⟨p, hp', hfrg, hdata⟩ := hcell.payload
  have hpe : p = content s := Option.some.inj (hp'.symm.trans hp)
  subst hpe
  have hlive : r.acked = 0 := by
    rcases (h.tied.ok.cell (List.mem_of_getElem? hr)).data with ⟨h1, -⟩ | ⟨h1, -⟩
    · exact h1
    · exact absurd (hcell.acked.mp h1) ha
  have hd : r.data = some s.bytes := hdata hlive
  have hcnt : a.cnt.una = t.una := congrArg Counters.una h.cnt
  have hbytes : r.bytes = s.bytes := by
    unfold Segment.bytes at hd ⊢
    rw [hd]
    rfl
  exact ⟨i - t.una, r, by omega, hr, ⟨hsn.trans hs.symm, hfrg, hbytes⟩, hlive, hd⟩

end Read

/-- **No loss.** In every reachable state, whatever was dropped, duplicated
or reordered, each of the `snd_nxt` numbers a side has assigned is held
unacknowledged with its data, or the peer has accepted it. -/
theorem ack_sound (conv : UInt32) (c : Side → Setup) (y : Sys) (hr : (freshSystem conv c).Reachable y) (a : Side) :
    (y.ends a).sent.length = (y.ends a).cnt.nxt ∧ (y.ends a).kcp.sndNxt = u32 (y.ends a).cnt.nxt ∧
      ∀ i s, (y.ends a).sent[i]? = some s →
        s.sn = u32 i ∧ (Held (y.ends a) i s ∨ Accepted (y.ends a.peer) i s) := by
  obtain ⟨T, X, hrel, -⟩ := linked_reachable (J := fun _ _ _ => True) trivial (fun _ _ _ => trivial) y
    (modeSystem_reachable hr)
  have ha := hrel.ends a
  have hb := hrel.ends a.peer
  rw [Side.peer_peer] at hb
  have hnxt : (y.ends a).cnt.nxt = (T a).sent.length := congrArg Counters.nxt ha.cnt
  refine ⟨?_, ?_, ?_⟩
  · rw [hnxt, ← ha.sent, List.length_map]
  · rw [hnxt]
    exact ha.tied.snd.nxt ha.tied.ok
  · intro i s hs
    have hsn : s.sn = u32 i := by
      rw [consec_iff.mp ha.numbers i s hs, UInt32.zero_add]
    have hp : (T a).sent[i]? = some (content s) := by
      rw [← ha.sent, List.getElem?_map, hs]
      rfl
    refine ⟨hsn, ?_⟩
    by_cases hhas : (X a.peer).Has i
    · exact .inr (hb.accepted hsn hp hhas)
    · -- not accepted: above una and never acknowledged
      refine .inl (ha.held hsn hp ?_ fun hk => hhas (ha.tied.fwd.acked i hk))
      by_contra hlt
      have := ha.tied.fwd.una_le
      exact hhas (.inl (by omega))

/-- Two segments in two packets; the second one arrives first and is
acknowledged while the first one is still on its way. -/
def ackRun : List Ev :=
  [.app .A (.noDelay 0 10 0 1), .app .A (.send [1]), .app .A (.flush .full fun _ => 5), .app .A (.send [2]),
    .app .A (.flush .full fun _ => 6), .deliver .B 1 false .regular true fun _ => 7,
    .deliver .A 0 false .regular false fun _ => 8]

theorem ack_sound_reordered : ∃ y, play freshEv (initial 7 fun _ => {}) ackRun = some y ∧
    (y.ends .A).kcp.sndBuf.map (fun s => (s.sn, s.acked)) = [(0, 0), (1, 1)] ∧
    ∀ i s, (y.ends .A).sent[i]? = some s → Held (y.ends .A) i s ∨ Accepted (y.ends .B) i s := by
  obtain ⟨y, hy, hb⟩ : ∃ y, play freshEv (initial 7 fun _ => {}) ackRun = some y ∧
      (y.ends .A).kcp.sndBuf.map (fun s => (s.sn, s.acked)) = [(0, 0), (1, 1)] :=
    ⟨_, rfl, by decide +kernel⟩
  have h := ack_sound 7 (fun _ => {}) y (play_reachable hy) .A
  exact ⟨y, hy, hb, fun i s hs => (h.2.2 i s hs).2⟩

end KcpGo.L3
