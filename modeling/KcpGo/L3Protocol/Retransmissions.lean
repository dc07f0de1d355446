import KcpGo.Core.Histories
import KcpGo.L2Machine.Resend
import KcpGo.L2Machine.Timers
import KcpGo.L3Protocol.SendWindow

/-!
# How often a segment is retransmitted quickly

A control block with the log of everything phase 5 has sent: the segments are
numbered without wrapping (`Traced.base` is the number of the oldest segment
in `snd_buf`), and each event has its reason. The guard against a second
quick retransmission is the value 0xFFFFFFFF in `fastack`: `Guarded` says it
is there whenever the history has a quick retransmission since its last
timeout, and every operation keeps that (`traced_inductive`).
-/
namespace KcpGo.L2

open KcpGo.L1 KcpGo.Serial KcpGo.Histories

variable {k e k' : KCP}

/-! ## One segment -/

def KCP.Reason.isTimeout (r : KCP.Reason) : Bool := r == .timeout

/-- The history of a segment and the guard in its `fastack`. -/
structure Guarded (h : List KCP.Reason) (s : Segment) : Prop where
  sparse : Sparse KCP.Reason.quick KCP.Reason.isTimeout h
  guard : Spent KCP.Reason.quick KCP.Reason.isTimeout h → s.fastack = 0xFFFFFFFF

theorem guarded_nil (s : Segment) : Guarded [] s := ⟨sparse_nil, fun h => absurd h not_spent_nil⟩

/-- The guard, once set, is not cleared. -/
def Later (s s' : Segment) : Prop := s.fastack = 0xFFFFFFFF → s'.fastack = 0xFFFFFFFF

theorem Guarded.later {h : List KCP.Reason} {s s' : Segment} (hg : Guarded h s) (hl : Later s s') : Guarded h s' :=
  ⟨hg.sparse, fun hs => hl (hg.guard hs)⟩

/-- A quick retransmission needs the guard open. -/
theorem reason_quick {resent t : UInt32} {n : Nat} {s : Segment} {r : KCP.Reason} (h : KCP.reason resent n t s = some r)
    (hq : r.quick = true) : s.fastack ≠ 0xFFFFFFFF := by
  unfold KCP.reason at h
  split at h
  · cases h
    cases hq
  split at h
  · rename_i hf
    exact hf.2
  split at h
  · rename_i he
    exact he.2.1
  split at h
  · cases h
    cases hq
  · cases h

/-- A quick retransmission closes the guard, and only a timeout opens it. -/
theorem sentAs_fastack (k : KCP) (seg : Segment) (r : KCP.Reason) (t now : UInt32) (s : Segment) :
    (KCP.sentAs k seg r t now s).fastack =
      match r with
      | .initial => s.fastack
      | .fast | .early => 0xFFFFFFFF
      | .timeout => 0 := by
  cases r <;> rfl

/-- One turn of phase 5. -/
theorem Guarded.turn {h : List KCP.Reason} {resent : UInt32} {n : Nat} {T : UInt32 → Prop} {s : Segment} {p : KCP.Pass}
    (hg : Guarded h s) (ht : KCP.Turn k resent n T s p) : Guarded (h ++ p.2.toList) p.1 := by
  cases ht with
  | acked => simpa using hg
  | waits => simpa using hg
  | goes hnow ha hr =>
    rename_i seg r t now
    refine ⟨hg.sparse.append fun hq hs => reason_quick hr hq (hg.guard hs), fun hs => ?_⟩
    rw [sentAs_fastack]
    rcases Spent.append hs with hq | ⟨ht, hold⟩
    · cases r with
      | fast | early => rfl
      | initial | timeout => cases hq
    · cases r with
      | initial => exact hg.guard hold
      | fast | early => rfl
      | timeout => cases ht

/-! ## The send buffer across an operation -/

/-- An operation's body drops `n` segments from the front of `snd_buf` and
clears no guard. -/
structure Aged (k e : KCP) (n : Nat) : Prop where
  una : e.sndUna = k.sndUna + u32 n
  len : n ≤ k.sndBuf.length
  buf : List.Forall₂ Later (k.sndBuf.drop n) e.sndBuf

theorem later_refl (l : List Segment) : List.Forall₂ Later l l := List.forall₂_same.mpr fun _ _ h => h

theorem later_trans {a b c : List Segment} (h₁ : List.Forall₂ Later a b) (h₂ : List.Forall₂ Later b c) :
    List.Forall₂ Later a c := by
  induction h₁ generalizing c with
  | nil => exact h₂
  | cons h _ ih =>
    cases h₂ with
    | cons h' ht => exact .cons (fun ha => h' (h ha)) (ih ht)

theorem aged_of_buf (hu : e.sndUna = k.sndUna) (hb : List.Forall₂ Later k.sndBuf e.sndBuf) : Aged k e 0 :=
  ⟨by simp [hu], Nat.zero_le _, by simpa using hb⟩

theorem Aged.trans {a b c : KCP} {n m : Nat} (h₁ : Aged a b n) (h₂ : Aged b c m) : Aged a c (n + m) := by
  have hlen := h₁.buf.length_eq
  have hm := h₂.len
  rw [List.length_drop] at hlen
  have hn := h₁.len
  refine ⟨by rw [h₂.una, h₁.una, add_u32_assoc], by omega, ?_⟩
  have h := List.forall₂_drop m h₁.buf
  rw [List.drop_drop] at h
  exact later_trans h h₂.buf

theorem markAcked_later (sn : UInt32) (l : List Segment) : List.Forall₂ Later l (KCP.markAcked sn l) := by
  induction l with
  | nil => exact .nil
  | cons s q ih =>
    rw [KCP.markAcked]
    split
    · exact .cons (fun h => h) (later_refl q)
    split
    · exact later_refl _
    · exact .cons (fun h => h) ih

/-- `parse_fastack` does not count beyond the guard. -/
theorem bumpFastack_later (sn ts fr : UInt32) (l : List Segment) :
    List.Forall₂ Later l (KCP.bumpFastack sn ts fr l).1 := by
  induction l with
  | nil => exact .nil
  | cons s q ih =>
    rw [KCP.bumpFastack]
    split
    · exact later_refl _
    split
    · rename_i hc
      exact .cons (fun h => absurd h hc.2.2) ih
    · exact .cons (fun h => h) ih

theorem aged_ack (k : KCP) (sn ts : UInt32) : Aged k ((k.parseAck sn).parseFastack sn ts).1 0 := by
  have hack : Aged k (k.parseAck sn) 0 := by
    unfold KCP.parseAck
    split
    · exact aged_of_buf rfl (later_refl _)
    · exact aged_of_buf rfl (markAcked_later sn _)
  have hfast : ∀ k : KCP, Aged k (k.parseFastack sn ts).1 0 := by
    intro k
    unfold KCP.parseFastack
    split
    · exact aged_of_buf rfl (later_refl _)
    · exact aged_of_buf rfl (bumpFastack_later _ _ _ _)
  exact hack.trans (hfast _)

theorem aged_head (hi : SndOk k) (pkt : PacketType) (h : Header) : ∃ n, Aged k (k.inputHead pkt h).1 n := by
  refine ⟨KCP.unaCount h.una k.sndBuf, ?_, KCP.unaCount_le _ _, ?_⟩
  · have hu := congrArg Snd.una (KCP.inputHead_snd k pkt h)
    rw [Snd.head_una hi] at hu
    simpa [KCP.snd, KCP.unaCount_core] using hu
  · cases pkt <;> exact later_refl _

theorem PushSpec.aged {h : Header} {payload : Bytes} (hs : KCP.PushSpec k h payload k') : Aged k k' 0 := by
  have hsame : k'.sndUna = k.sndUna ∧ k'.sndBuf = k.sndBuf := by
    cases hs with
    | beyond => exact ⟨rfl, rfl⟩
    | old => exact ⟨rfl, rfl⟩
    | repeated =>
      obtain ⟨b, q, s, e⟩ := KCP.moveReady_frame (k.ackPush h.sn h.ts).rcvBuf.segments.length (k.ackPush h.sn h.ts)
      rw [KCP.moveAll, e]
      exact ⟨rfl, rfl⟩
    | stored =>
      obtain ⟨b, q, s, e⟩ := KCP.moveReady_frame (k.rcvBuf.push (KCP.pushed h payload)).segments.length
        { k.ackPush h.sn h.ts with rcvBuf := k.rcvBuf.push (KCP.pushed h payload) }
      rw [KCP.moveAll, e]
      exact ⟨rfl, rfl⟩
  refine aged_of_buf hsame.1 ?_
  rw [hsame.2]
  exact later_refl _

theorem aged_seg {pkt : PacketType} {h : Header} {payload : Bytes} {st st' : InLoop} (hi : SndOk st.k)
    (hs : KCP.inputSeg pkt h payload st = .ok st') : ∃ n, Aged st.k st'.k n := by
  obtain ⟨n, hn⟩ := aged_head hi pkt h
  unfold KCP.inputSeg at hs
  dsimp only at hs
  split at hs
  · cases hs
    exact ⟨_, hn.trans (aged_ack _ _ _)⟩
  split at hs
  · obtain ⟨e, hp, hs⟩ := Go.bind_ok hs
    cases hs
    exact ⟨_, hn.trans (KcpGo.L2.PushSpec.aged (KCP.inputPush_spec hp))⟩
  split at hs
  · cases hs
    exact ⟨n, hn.una, hn.len, hn.buf⟩
  · cases hs
    exact ⟨n, hn⟩

theorem aged_inputBody {data : Bytes} {pkt : PacketType} {clk clk' : Clock} {ret : Option Int} {fl : Bool}
    (hi : SndOk k) (h : k.inputBody data pkt clk = .ok (e, ret, fl, clk')) : ∃ n, Aged k e n := by
  unfold KCP.inputBody at h
  split at h
  · cases h
    exact ⟨0, aged_of_buf rfl (later_refl _)⟩
  obtain ⟨⟨st, r⟩, hl, h⟩ := Go.bind_ok h
  have hloop : SndOk st.k ∧ ∃ n, Aged k st.k n := by
    refine KCP.inputLoop_invariant (P := fun st => SndOk st.k ∧ ∃ n, Aged k st.k n) ?_ hl
      ⟨hi, 0, aged_of_buf rfl (later_refl _)⟩
    intro hd payload st st' _ hs ⟨hok, n, hn⟩
    obtain ⟨m, hm⟩ := aged_seg hok hs
    exact ⟨(hok.seg (KCP.inputSeg_spec hs)).1, n + m, hn.trans hm⟩
  obtain ⟨-, n, hn⟩ := hloop
  cases r with
  | some r =>
    cases h
    exact ⟨n, hn⟩
  | none =>
    obtain ⟨k₂, hg, h⟩ := Go.bind_ok h
    cases h
    obtain ⟨c, i, he⟩ := KCP.growCwnd_spec hg
    have hsame : (KCP.sampleRtt pkt st clk).1.sndUna = st.k.sndUna ∧
        (KCP.sampleRtt pkt st clk).1.sndBuf = st.k.sndBuf := by
      unfold KCP.sampleRtt KCP.updateAck KCP.smoothRtt
      split
      · dsimp only
        split
        · split <;> exact ⟨rfl, rfl⟩
        · exact ⟨rfl, rfl⟩
      · exact ⟨rfl, rfl⟩
    have hbuf : e.sndBuf = st.k.sndBuf := by
      rw [he]
      exact hsame.2
    refine ⟨n, ?_, hn.len, by rw [hbuf]; exact hn.buf⟩
    rw [he]
    exact hsame.1.trans hn.una

theorem entry_aged {op : Op} (hi : SndOk k) (h : entry k op = .ok e) : ∃ n, Aged k e n := by
  have hsame : ∀ {e : KCP}, e.sndUna = k.sndUna → e.sndBuf = k.sndBuf → ∃ n, Aged k e n := by
    intro e hu hb
    exact ⟨0, aged_of_buf hu (by rw [hb]; exact later_refl _)⟩
  cases op with
  | send buffer =>
    obtain ⟨⟨e, r⟩, hs, h⟩ := Go.bind_ok h
    cases h
    obtain ⟨q, rfl, -⟩ := KCP.send_spec hs
    exact hsame rfl rfl
  | recv room =>
    obtain ⟨⟨e, r, d⟩, hs, h⟩ := Go.bind_ok h
    cases h
    rcases KCP.recv_spec hs with ⟨-, rfl, -, -⟩ | ⟨-, q, p, -, rfl, -⟩
    · exact hsame rfl rfl
    · obtain ⟨b, q', s, he⟩ := KCP.moveReady_frame k.rcvBuf.segments.length { k with rcvQueue := q }
      rw [KCP.moveAll, he]
      exact hsame rfl rfl
  | input data pkt nd clk =>
    obtain ⟨⟨e, ret, fl, clk'⟩, hs, h⟩ := Go.bind_ok h
    cases h
    exact aged_inputBody hi hs
  | noDelay a b c d =>
    cases h
    unfold KCP.noDelay
    dsimp only
    refine hsame ?_ ?_
    · split <;> split <;> split <;> split <;> rfl
    · split <;> split <;> split <;> split <;> rfl
  | wndSize a b =>
    cases h
    unfold KCP.wndSize
    dsimp only
    refine hsame ?_ ?_
    · split <;> split <;> rfl
    · split <;> split <;> rfl
  | setMtu mtu =>
    obtain ⟨⟨e, r⟩, hs, h⟩ := Go.bind_ok h
    cases h
    unfold KCP.setMtu at hs
    split at hs
    · cases hs
      exact hsame rfl rfl
    · dsimp only at hs
      split at hs <;> cases hs
      exact hsame rfl rfl
  | resetRTO clk =>
    cases h
    refine ⟨0, aged_of_buf rfl ?_⟩
    rw [KCP.resetRTO, List.forall₂_map_right_iff]
    exact later_refl _
  | update clk =>
    cases h
    unfold KCP.updateTimer KCP.expire KCP.resync KCP.startTimer
    refine hsame ?_ ?_
    · split <;> split <;> split <;> rfl
    · split <;> split <;> split <;> rfl
  | setStream | peekSize | flush | waitSnd | check =>
    cases h
    exact hsame rfl rfl

/-! ## The log -/

/-- A control block and everything phase 5 has sent: `base` is the number of
the oldest segment in `snd_buf`, without wrapping. -/
structure Traced where
  k : KCP
  base : Nat
  log : List (Nat × KCP.Reason)

namespace Traced

/-- The number of the oldest segment after a step to `k'`. -/
def nextBase (t : Traced) (k' : KCP) : Nat := t.base + (k'.sndUna - t.k.sndUna).toNat

/-- What the flush of an operation sends, if it makes one. -/
def events (t : Traced) (op : Op) (k' : KCP) : List (Nat × KCP.Reason) :=
  match entry t.k op, flushArgs t.k op with
  | .ok e, some (ft, clk) => row (t.nextBase k') ((e.passes ft clk).map Prod.snd)
  | _, _ => []

def after (t : Traced) (op : Op) (k' : KCP) : Traced where
  k := k'
  base := t.nextBase k'
  log := t.log ++ t.events op k'

end Traced

/-- The control block as a transition system, with the log. -/
def tracedLts (conv : UInt32) : LTS Traced Op where
  init t := t = ⟨newKCP conv, 0, []⟩
  step t op t' := ∃ k' o, step t.k op = .ok (k', o) ∧ t' = t.after op k'

structure TracedInv (t : Traced) : Prop where
  ok : SndOk t.k
  una : t.k.sndUna = u32 t.base
  sparse : ∀ i, Sparse KCP.Reason.quick KCP.Reason.isTimeout (history t.log i)
  held : ∀ j s, t.k.sndBuf[j]? = some s → Guarded (history t.log (t.base + j)) s
  fresh : ∀ i, t.base + t.k.sndBuf.length ≤ i → history t.log i = []

/-- The state before the flush, with the log as it was. -/
structure BodyInv (t : Traced) (base : Nat) (e : KCP) : Prop where
  held : ∀ j s, e.sndBuf[j]? = some s → Guarded (history t.log (base + j)) s
  fresh : ∀ i, base + e.sndBuf.length ≤ i → history t.log i = []

theorem TracedInv.body {t : Traced} {n : Nat} (h : TracedInv t) (ha : Aged t.k e n) : BodyInv t (t.base + n) e := by
  have hlen := ha.buf.length_eq
  rw [List.length_drop] at hlen
  have hn := ha.len
  refine ⟨fun j s hs => ?_, fun i hi => h.fresh i (by omega)⟩
  obtain ⟨hj, -⟩ := List.getElem?_eq_some_iff.mp hs
  have hdrop : j < (t.k.sndBuf.drop n).length := by rw [List.length_drop]; omega
  have hpair := List.forall₂_iff_get.mp ha.buf
  have hlater := hpair.2 j hdrop hj
  have hold : t.k.sndBuf[n + j]? = some ((t.k.sndBuf.drop n).get ⟨j, hdrop⟩) := by
    rw [← List.getElem?_drop]
    exact List.getElem?_eq_getElem hdrop
  have hget : e.sndBuf.get ⟨j, hj⟩ = s := by
    rw [List.getElem?_eq_getElem hj] at hs
    exact Option.some.inj hs
  rw [hget] at hlater
  have hg := h.held (n + j) _ hold
  rw [← Nat.add_assoc] at hg
  exact hg.later hlater

/-- Segments that enter `snd_buf` have no history. -/
theorem BodyInv.filled {t : Traced} {base : Nat} (h : BodyInv t base e) (clk : Clock) {j : Nat} {s : Segment}
    (hs : (e.filled clk).1.sndBuf[j]? = some s) : Guarded (history t.log (base + j)) s := by
  obtain ⟨p, tp, w, m, hfilled, -⟩ := e.filled_spec clk
  rw [hfilled] at hs
  dsimp only at hs
  by_cases hj : j < e.sndBuf.length
  · rw [List.getElem?_append_left hj] at hs
    exact h.held j s hs
  · rw [h.fresh _ (by omega)]
    exact guarded_nil s

/-- One turn each. -/
theorem BodyInv.passes {t : Traced} {base : Nat} (h : BodyInv t base e) (ft : FlushType) (clk : Clock) {j : Nat}
    {p : KCP.Pass} (hp : (e.passes ft clk)[j]? = some p) : Guarded (history t.log (base + j) ++ p.2.toList) p.1 := by
  obtain ⟨hj, hget⟩ := List.getElem?_eq_some_iff.mp hp
  have hj' : j < (e.filled clk).1.sndBuf.length := by rw [← e.passes_length ft clk]; exact hj
  have hg := h.filled clk (List.getElem?_eq_getElem hj')
  cases ft with
  | full =>
    have hturns := List.forall₂_iff_get.mp (KCP.passes_turns (fun _ => True) e clk fun _ => trivial)
    have hturn := hturns.2 j hj' hj
    rw [show (e.passes .full clk).get ⟨j, hj⟩ = p from hget] at hturn
    exact hg.turn hturn
  | ackOnly =>
    simp only [KCP.passes_ackOnly, List.getElem_map] at hget
    subst hget
    simpa using hg

theorem TracedInv.flush {t : Traced} {base : Nat} {ft : FlushType} {clk : Clock} {out : List Bytes} {nx : UInt32}
    (h : TracedInv t) (hb : BodyInv t base e) (hf : e.flush ft clk = .ok (k', out, nx)) :
    let log := t.log ++ row base ((e.passes ft clk).map Prod.snd)
    (∀ i, Sparse KCP.Reason.quick KCP.Reason.isTimeout (history log i)) ∧
      (∀ j s, k'.sndBuf[j]? = some s → Guarded (history log (base + j)) s) ∧
      ∀ i, base + k'.sndBuf.length ≤ i → history log i = [] := by
  have hbuf := KCP.flush_sndBuf hf
  have hturns := e.passes_length ft clk
  have hgrow : e.sndBuf.length ≤ (e.filled clk).1.sndBuf.length := by
    obtain ⟨p, tp, w, m, hfilled, -⟩ := e.filled_spec clk
    rw [hfilled]
    simp
  have hrow : ∀ j p, (e.passes ft clk)[j]? = some p → history (row base ((e.passes ft clk).map Prod.snd))
      (base + j) = p.2.toList := by
    intro j p hp
    rw [history_row, List.getElem?_map, hp]
    rfl
  have hend : ∀ j, (e.passes ft clk).length ≤ j →
      history (row base ((e.passes ft clk).map Prod.snd)) (base + j) = [] := by
    intro j hj
    rw [history_row, List.getElem?_eq_none (by simpa using hj)]
    rfl
  refine ⟨fun i => ?_, fun j s hs => ?_, fun i hi => ?_⟩
  · rw [history_append]
    rcases Nat.lt_or_ge i base with hlt | hge
    · rw [history_row_before hlt, List.append_nil]
      exact h.sparse i
    · obtain ⟨j, rfl⟩ := Nat.exists_eq_add_of_le hge
      rcases Nat.lt_or_ge j (e.passes ft clk).length with hj | hj
      · have hp := List.getElem?_eq_getElem hj
        rw [hrow j _ hp]
        exact (hb.passes ft clk hp).sparse
      · rw [hend j hj, List.append_nil]
        exact h.sparse _
  · rw [hbuf, List.getElem?_map, Option.map_eq_some_iff] at hs
    obtain ⟨p, hp, rfl⟩ := hs
    rw [history_append, hrow j p hp]
    exact hb.passes ft clk hp
  · rw [hbuf, List.length_map] at hi
    obtain ⟨j, rfl⟩ := Nat.exists_eq_add_of_le (show base ≤ i by omega)
    rw [history_append, hend j (by omega), List.append_nil]
    exact hb.fresh _ (by omega)

/-- `snd_una` moves by what was dropped. -/
theorem nextBase_eq {t : Traced} {n : Nat} (h : TracedInv t) (ha : Aged t.k e n) (hu : k'.sndUna = e.sndUna) :
    t.nextBase k' = t.base + n := by
  have hlen : t.k.sndBuf.length ≤ 65535 := by simpa [KCP.snd] using h.ok.len
  have hn := ha.len
  unfold Traced.nextBase
  rw [hu, ha.una, add_u32_sub _ (by omega)]

theorem TracedInv.step {t : Traced} {op : Op} {o : Out} (h : TracedInv t) (hs : L2.step t.k op = .ok (k', o)) :
    TracedInv (t.after op k') := by
  have hok := h.ok.step hs
  obtain ⟨e, he, hends⟩ := step_parts hs
  obtain ⟨n, ha⟩ := entry_aged h.ok he
  have hbody := h.body ha
  generalize hargs : flushArgs t.k op = args at hends
  cases hends with
  | returns hk =>
    subst hk
    have hbase := nextBase_eq h ha rfl
    have hlog : (t.after op k').log = t.log := by simp [Traced.after, Traced.events, he, hargs]
    refine ⟨hok, ?_, fun i => by rw [hlog]; exact h.sparse i, ?_, ?_⟩
    · show k'.sndUna = u32 (t.nextBase k')
      rw [hbase, ha.una, h.una, u32_add]
    · rw [hlog]
      show ∀ j s, k'.sndBuf[j]? = some s → Guarded (history t.log (t.nextBase k' + j)) s
      rw [hbase]
      exact hbody.held
    · rw [hlog]
      show ∀ i, t.nextBase k' + k'.sndBuf.length ≤ i → history t.log i = []
      rw [hbase]
      exact hbody.fresh
  | flushes nx hf =>
    rename_i ft clk
    have hu : k'.sndUna = e.sndUna := by
      obtain ⟨m, hm⟩ := KCP.flush_spec hf
      exact congrArg Snd.una hm.snd
    have hbase := nextBase_eq h ha hu
    have hlog : (t.after op k').log = t.log ++ row (t.base + n) ((e.passes ft clk).map Prod.snd) := by
      simp [Traced.after, Traced.events, he, hargs, hbase]
    obtain ⟨h1, h2, h3⟩ := h.flush hbody hf
    refine ⟨hok, ?_, by rw [hlog]; exact h1, ?_, ?_⟩
    · show k'.sndUna = u32 (t.nextBase k')
      rw [hbase, hu, ha.una, h.una, u32_add]
    · rw [hlog]
      show ∀ j s, k'.sndBuf[j]? = some s → Guarded (history _ (t.nextBase k' + j)) s
      rw [hbase]
      exact h2
    · rw [hlog]
      show ∀ i, t.nextBase k' + k'.sndBuf.length ≤ i → history _ i = []
      rw [hbase]
      exact h3

theorem traced_inductive (conv : UInt32) : (tracedLts conv).Inductive TracedInv where
  init t ht := by
    subst ht
    exact ⟨sndOk_newKCP conv, rfl, fun _ => sparse_nil, fun j s hs => guarded_nil s, fun _ _ => rfl⟩
  step t op t' h hs := by
    obtain ⟨k', o, hstep, rfl⟩ := hs
    exact h.step hstep

/-! ## The log and the packets -/

/-- The PUSH segments among what a flush sends. -/
theorem pending_pushes {ft : FlushType} {clk : Clock} {out : List Bytes} {nx : UInt32}
    (hf : e.flush ft clk = .ok (k', out, nx)) (hok : SndOk k') :
    (e.pending ft clk).filter (·.cmd = IKCP_CMD_PUSH) = e.pushSegs ft clk := by
  have hacks : e.ackSegs.filter (·.cmd = IKCP_CMD_PUSH) = [] := by
    rw [List.filter_eq_nil_iff]
    intro s hs
    obtain ⟨a, -, rfl⟩ := List.mem_map.mp hs
    show ¬ decide (IKCP_CMD_ACK = IKCP_CMD_PUSH) = true
    decide
  have hprobes : (e.probeSegs clk).filter (·.cmd = IKCP_CMD_PUSH) = [] := by
    unfold KCP.probeSegs
    rw [List.filter_append]
    have hwask : ¬ IKCP_CMD_WASK = IKCP_CMD_PUSH := by decide
    have hwins : ¬ IKCP_CMD_WINS = IKCP_CMD_PUSH := by decide
    split <;> split <;> simp [hwask, hwins]
  have hpush : (e.pushSegs ft clk).filter (·.cmd = IKCP_CMD_PUSH) = e.pushSegs ft clk := by
    rw [List.filter_eq_self]
    intro s hs
    rw [KCP.pushSegs_passes] at hs
    obtain ⟨p, hp, rfl⟩ := List.mem_map.mp hs
    have hmem : p.1 ∈ k'.sndBuf := by
      rw [KCP.flush_sndBuf hf]
      exact List.mem_map_of_mem (List.mem_of_mem_filter hp)
    simpa using (hok.cell hmem).cmd
  unfold KCP.pending
  rw [List.filter_append, List.filter_append, hacks, hprobes, hpush]
  rfl

/-- The numbers written are those of the log, modulo 2^32. -/
theorem passes_sn {ps : List KCP.Pass} {b : Nat} (h : Consec (fun p => p.1.sn) (u32 b) ps) :
    ((ps.filter (·.2.isSome)).map Prod.fst).map Segment.sn = (row b (ps.map Prod.snd)).map fun e => u32 e.1 := by
  induction ps generalizing b with
  | nil => rfl
  | cons p ps ih =>
    obtain ⟨hp, hps⟩ := h
    rw [u32_succ] at hps
    obtain ⟨s, r⟩ := p
    cases r with
    | none => simpa [row] using ih hps
    | some r =>
      have hrest := ih hps
      simp only [List.filter_cons, Option.isSome_some, if_true, List.map_cons, row] at hrest ⊢
      rw [hrest]
      exact congrArg (· :: _) hp

/-- **At most one quick retransmission per timeout period.** In every run,
for every segment: a stretch of its history without a timeout has at most one
fast or early retransmission. And the packets of every operation carry the
PUSH segments of the log, each once. -/
theorem quick_once (conv : UInt32) (t : Traced) (hr : (tracedLts conv).Reachable t) :
    (∀ i l, l <:+: history t.log i → KCP.Reason.timeout ∉ l → l.countP KCP.Reason.quick ≤ 1) ∧
      ∀ op k' o, step t.k op = .ok (k', o) → ∃ pss : List (List Segment), o.pkts.filter (· ≠ []) = pss.map encodeAll ∧
        (pss.flatten.filter (·.cmd = IKCP_CMD_PUSH)).map Segment.sn = (t.events op k').map (fun e => u32 e.1) ∧
        ((pss.flatten.filter (·.cmd = IKCP_CMD_PUSH)).map Segment.sn).Nodup := by
  have h := (traced_inductive conv).reachable t hr
  constructor
  · intro i l hl hno
    refine h.sparse i l hl fun r hr => ?_
    have : r ≠ .timeout := fun hrt => hno (hrt ▸ hr)
    simpa [KCP.Reason.isTimeout] using this
  · intro op k' o hs
    have hok : SndOk k' := (h.step hs).ok
    have huna : k'.sndUna = u32 (t.nextBase k') := (h.step hs).una
    obtain ⟨e, he, hends⟩ := step_parts hs
    generalize hargs : flushArgs t.k op = args at hends
    cases hends with
    | returns _ hpkts =>
      refine ⟨[], by simp [hpkts], ?_, by simp⟩
      simp [Traced.events, he, hargs]
    | flushes nx hf =>
      rename_i ft clk
      obtain ⟨pss, hout, hflat, -⟩ := KCP.flush_packets hf
      have hbuf := KCP.flush_sndBuf hf
      have hrun : Consec (fun p : KCP.Pass => p.1.sn) (u32 (t.nextBase k')) (e.passes ft clk) := by
        rw [← huna, consec_iff]
        intro i p hp
        refine consec_iff.mp hok.run i p.1.core ?_
        simp [KCP.snd, hbuf, hp]
      have hsn := passes_sn hrun
      rw [← KCP.pushSegs_passes] at hsn
      refine ⟨pss, hout, ?_, ?_⟩
      · rw [hflat, pending_pushes hf hok, hsn]
        simp [Traced.events, he, hargs]
      · rw [hflat, pending_pushes hf hok, KCP.pushSegs_passes, List.map_map]
        have hlen : (e.passes ft clk).length ≤ 65535 := by
          have := hok.len
          simpa [KCP.snd, hbuf] using this
        exact (hrun.nodup (by omega)).sublist (List.filter_sublist.map _)

/-- Two segments; the second is acknowledged, then a flush at 0 and one at
300 ms. -/
def lossRun : List Op :=
  [.noDelay 0 10 2 1, .send [1], .send [2], .flush .full fun _ => 0,
    .input (({ conv := 7, cmd := IKCP_CMD_ACK, wnd := 32, sn := 1 } : Segment).wire) .regular false fun _ => 0,
    .flush .full fun _ => 0, .flush .full fun _ => 300]

def traceStep (t : Traced) (op : Op) : Option Traced :=
  match step t.k op with
  | .ok (k', _) => some (t.after op k')
  | .error _ => none

theorem traceStep_step (conv : UInt32) (t : Traced) (op : Op) (t' : Traced) (h : traceStep t op = some t') :
    (tracedLts conv).step t op t' := by
  unfold traceStep at h
  split at h
  · rename_i k' o hs
    cases h
    exact ⟨k', o, hs, rfl⟩
  · cases h

theorem quick_once_early : ∃ t, (tracedLts 7).Reachable t ∧ history t.log 0 = [.initial, .early, .timeout] ∧
    [KCP.Reason.initial, .early].countP KCP.Reason.quick ≤ 1 ∧
      ∀ op k' o, step t.k op = .ok (k', o) → ∃ pss : List (List Segment), o.pkts.filter (· ≠ []) = pss.map encodeAll ∧
        (pss.flatten.filter (·.cmd = IKCP_CMD_PUSH)).map Segment.sn = (t.events op k').map (fun e => u32 e.1) ∧
        ((pss.flatten.filter (·.cmd = IKCP_CMD_PUSH)).map Segment.sn).Nodup := by
  obtain ⟨t, ht, hh⟩ : ∃ t, LTS.play traceStep (fun _ _ => true) ⟨newKCP 7, 0, []⟩ lossRun = some t ∧
      history t.log 0 = [.initial, .early, .timeout] := ⟨_, rfl, by decide +kernel⟩
  have hr : (tracedLts 7).Reachable t := ⟨_, _, rfl, LTS.play_run (fun s l s' _ h => traceStep_step 7 s l s' h) ht⟩
  refine ⟨t, hr, hh, (quick_once 7 t hr).1 0 _ ?_ (by decide), (quick_once 7 t hr).2⟩
  rw [hh]
  exact ⟨[], [.timeout], rfl⟩

end KcpGo.L2
