import KcpGo.L2Machine.FlushSpec
import KcpGo.L2Machine.Input

/-!
# What an `Input` does

`Input` as seen through the views of `FlushSpec`:

* `inputHead_snd`, `inputAck_snd`: the send side changes by `Snd.head` (window
  and una) and `Snd.ack` only.
* `inputPush_spec`: the four things a PUSH segment can do to the receive side.
* `inputLoop_keeps`: the induction rule for the header loop on arbitrary bytes;
  `inputLoop_encodeAll`: on a run of whole segments it is the loop over them.
* `input_spec`: the loop, then timers, then at most one flush.
-/
namespace KcpGo.L2

open KcpGo.L1

/-- The two states differ in timers and congestion state at most. -/
structure Same (k k' : KCP) : Prop where
  rcv : k'.rcv = k.rcv
  snd : k'.snd = k.snd
  cfg : k'.cfg = k.cfg
  acklist : k'.acklist = k.acklist

theorem Same.refl (k : KCP) : Same k k := ⟨rfl, rfl, rfl, rfl⟩

theorem Same.trans {a b c : KCP} (h₁ : Same a b) (h₂ : Same b c) : Same a c :=
  ⟨h₂.rcv.trans h₁.rcv, h₂.snd.trans h₁.snd, h₂.cfg.trans h₁.cfg, h₂.acklist.trans h₁.acklist⟩

/-! ## The send side -/

namespace Snd

/-- Every header: the remote window (regular packets) and una. -/
def head (v : Snd) (wnd : Option UInt32) (una : UInt32) : Snd :=
  { v with rmtWnd := wnd.getD v.rmtWnd
           buf := v.buf.drop (KCP.unaCount una v.buf)
           una := KCP.firstSn v.nxt (v.buf.drop (KCP.unaCount una v.buf)) }

/-- An ACK of `sn`. -/
def ack (v : Snd) (sn : UInt32) : Snd :=
  if itimediff sn v.una < 0 ∨ 0 ≤ itimediff sn v.nxt then v
  else { v with buf := KCP.markAcked sn v.buf }

end Snd

namespace KCP

variable {k k' : KCP} {payload data : Bytes} {pkt : PacketType}

theorem unaCount_core (una : UInt32) (l : List Segment) :
    unaCount una (l.map Segment.core) = unaCount una l := by
  induction l with
  | nil => rfl
  | cons s q ih => simp [unaCount, ih]

theorem unaCount_le (una : UInt32) (l : List Segment) : unaCount una l ≤ l.length := by
  induction l with
  | nil => simp [unaCount]
  | cons s q ih =>
    rw [unaCount]
    split
    · simpa using ih
    · simp

theorem markAcked_core (sn : UInt32) (l : List Segment) :
    (markAcked sn l).map Segment.core = markAcked sn (l.map Segment.core) := by
  induction l with
  | nil => rfl
  | cons s q ih =>
    simp only [markAcked, List.map_cons, Segment.core_sn]
    by_cases h1 : sn = s.sn
    · simp only [h1, if_true]
      rfl
    · by_cases h2 : itimediff sn s.sn < 0
      · simp [h1, h2]
      · simp [h1, h2, ih]

theorem bumpFastack_core (sn ts fr : UInt32) (l : List Segment) :
    (bumpFastack sn ts fr l).1.map Segment.core = l.map Segment.core := by
  induction l with
  | nil => rfl
  | cons s q ih =>
    simp only [bumpFastack]
    split
    · rfl
    · split
      · simp only [List.map_cons, ih, List.cons.injEq, and_true]
        rfl
      · simp [ih]

/-- The window a header sets, if any. -/
def wndOf (pkt : PacketType) (h : Header) : Option UInt32 :=
  if pkt = .regular then some h.wnd.toUInt32 else none

theorem inputHead_snd (k : KCP) (pkt : PacketType) (h : Header) :
    (k.inputHead pkt h).1.snd = k.snd.head (wndOf pkt h) h.una := by
  cases pkt <;>
  · simp only [inputHead, parseUna, shrinkBuf, snd, Snd.head, wndOf, unaCount_core, ← List.map_drop,
      reduceCtorEq, if_true, if_false, Option.getD]
    generalize List.drop _ _ = l
    cases l <;> rfl

theorem inputHead_rest (k : KCP) (pkt : PacketType) (h : Header) :
    (k.inputHead pkt h).1.rcv = k.rcv ∧ (k.inputHead pkt h).1.cfg = k.cfg ∧
      (k.inputHead pkt h).1.acklist = k.acklist := by
  cases pkt <;> exact ⟨rfl, rfl, rfl⟩

theorem inputAck_snd (k : KCP) (sn ts : UInt32) :
    ((k.parseAck sn).parseFastack sn ts).1.snd = k.snd.ack sn := by
  have h1 : (k.parseAck sn).snd = k.snd.ack sn := by
    simp only [parseAck, Snd.ack]
    by_cases hc : itimediff sn k.sndUna < 0 ∨ 0 ≤ itimediff sn k.sndNxt
    · simp [snd, hc]
    · simp [snd, hc, markAcked_core]
  rw [← h1]
  simp only [parseFastack]
  split
  · rfl
  · simp [snd, bumpFastack_core]

theorem inputAck_rest (k : KCP) (sn ts : UInt32) :
    ((k.parseAck sn).parseFastack sn ts).1.rcv = k.rcv ∧
      ((k.parseAck sn).parseFastack sn ts).1.cfg = k.cfg ∧
      ((k.parseAck sn).parseFastack sn ts).1.acklist = k.acklist := by
  have h1 : (k.parseAck sn).rcv = k.rcv ∧ (k.parseAck sn).cfg = k.cfg ∧
      (k.parseAck sn).acklist = k.acklist := by
    simp only [parseAck]
    split <;> exact ⟨rfl, rfl, rfl⟩
  simp only [parseFastack]
  split
  · exact h1
  · exact h1

/-! ## The receive side -/

/-- The move loop changes the receive side only. -/
theorem moveReady_frame : ∀ (n : Nat) (k : KCP), ∃ b q s,
    moveReady n k = { k with rcvBuf := b, rcvQueue := q, rcvNxt := s } := by
  intro n
  induction n with
  | zero => intro k; exact ⟨_, _, _, rfl⟩
  | succ n ih =>
    intro k
    rw [moveReady]
    split
    · exact ⟨_, _, _, rfl⟩
    · split
      · obtain ⟨b, q, s, h⟩ := ih { k with rcvBuf := _, rcvQueue := _, rcvNxt := _ }
        rw [h]
        exact ⟨_, _, _, rfl⟩
      · exact ⟨_, _, _, rfl⟩

/-- What a PUSH segment does. -/
inductive PushSpec (k : KCP) (h : Header) (payload : Bytes) : KCP → Prop where
  | beyond (hb : 0 ≤ itimediff h.sn (k.rcvNxt + k.rcvWnd)) : PushSpec k h payload k
  | old (hb : itimediff h.sn (k.rcvNxt + k.rcvWnd) < 0) (ho : itimediff h.sn k.rcvNxt < 0) :
    PushSpec k h payload (k.ackPush h.sn h.ts)
  | repeated (hb : itimediff h.sn (k.rcvNxt + k.rcvWnd) < 0) (hn : 0 ≤ itimediff h.sn k.rcvNxt)
    (hr : k.rcvBuf.has h.sn = true) : PushSpec k h payload (k.ackPush h.sn h.ts).moveAll
  | stored (hb : itimediff h.sn (k.rcvNxt + k.rcvWnd) < 0) (hn : 0 ≤ itimediff h.sn k.rcvNxt)
    (hr : k.rcvBuf.has h.sn = false) (hl : payload.length ≤ maxPacketSize) :
    PushSpec k h payload
      (moveAll { k.ackPush h.sn h.ts with rcvBuf := k.rcvBuf.push (pushed h payload) })

theorem inputPush_spec {h : Header}
    (he : k.inputPush h payload = .ok k') : PushSpec k h payload k' := by
  unfold inputPush at he
  split at he
  · rename_i hb
    split at he
    · rename_i hn
      obtain ⟨⟨k₁, r⟩, hp, he⟩ := Go.bind_ok he
      cases he
      unfold parseData at hp
      split at hp
      · rename_i hout
        rcases hout with hout | hout
        · exact absurd hb (Int32.not_lt.mpr hout)
        · exact absurd hn (Int32.not_le.mpr hout)
      · split at hp
        · rename_i hr
          cases hp
          exact .repeated hb hn hr
        · rename_i hr
          split at hp
          · cases hp
          · rename_i hl
            cases hp
            refine .stored hb hn ?_ ?_
            · simpa [pushed, ackPush] using hr
            · simpa [pushed, Segment.len, Segment.bytes] using hl
    · rename_i ho
      cases he
      exact .old hb (Int32.not_le.mp ho)
  · rename_i hb
    cases he
    exact .beyond (Int32.not_lt.mp hb)

theorem PushSpec.rest {h : Header} (hs : PushSpec k h payload k') :
    k'.snd = k.snd ∧ k'.cfg = k.cfg ∧ k'.rcvWnd = k.rcvWnd := by
  cases hs with
  | beyond => exact ⟨rfl, rfl, rfl⟩
  | old => exact ⟨rfl, rfl, rfl⟩
  | repeated =>
    obtain ⟨b, q, s, e⟩ := moveReady_frame (k.ackPush h.sn h.ts).rcvBuf.segments.length (k.ackPush h.sn h.ts)
    rw [moveAll, e]
    exact ⟨rfl, rfl, rfl⟩
  | stored =>
    obtain ⟨b, q, s, e⟩ := moveReady_frame (k.rcvBuf.push (pushed h payload)).segments.length
      { k.ackPush h.sn h.ts with rcvBuf := k.rcvBuf.push (pushed h payload) }
    rw [moveAll, e]
    exact ⟨rfl, rfl, rfl⟩

/-! ## One segment -/

/-- What one segment of a packet does. -/
structure SegSpec (pkt : PacketType) (h : Header) (payload : Bytes) (k k' : KCP) : Prop where
  cfg : k'.cfg = k.cfg
  snd : k'.snd = if h.cmd = IKCP_CMD_ACK then (k.snd.head (wndOf pkt h) h.una).ack h.sn
    else k.snd.head (wndOf pkt h) h.una
  push : h.cmd = IKCP_CMD_PUSH →
    ∃ k₁, k₁.rcv = k.rcv ∧ k₁.acklist = k.acklist ∧ PushSpec k₁ h payload k'
  other : h.cmd ≠ IKCP_CMD_PUSH → k'.rcv = k.rcv ∧ k'.acklist = k.acklist

theorem inputSeg_spec {h : Header} {st st' : InLoop}
    (he : inputSeg pkt h payload st = .ok st') : SegSpec pkt h payload st.k st'.k := by
  obtain ⟨hr, hc, ha⟩ := inputHead_rest st.k pkt h
  have hs := inputHead_snd st.k pkt h
  unfold inputSeg at he
  dsimp only at he
  split at he
  · rename_i hack
    cases he
    obtain ⟨hr', hc', ha'⟩ := inputAck_rest (st.k.inputHead pkt h).1 h.sn h.ts
    exact ⟨hc'.trans hc, by rw [inputAck_snd, hs, if_pos hack],
      fun hp => absurd (hp.symm.trans hack) (by decide), fun _ => ⟨hr'.trans hr, ha'.trans ha⟩⟩
  rename_i hack
  split at he
  · rename_i hpush
    obtain ⟨k₁, hp, he⟩ := Go.bind_ok he
    cases he
    have hspec := inputPush_spec hp
    obtain ⟨hs', hc', -⟩ := hspec.rest
    exact ⟨hc'.trans hc, by rw [if_neg hack]; exact hs'.trans hs, fun _ => ⟨_, hr, ha, hspec⟩,
      fun hn => absurd hpush hn⟩
  rename_i hpush
  split at he
  · cases he
    exact ⟨hc, by rw [if_neg hack]; exact hs, fun hp => absurd hp hpush, fun _ => ⟨hr, ha⟩⟩
  · cases he
    exact ⟨hc, by rw [if_neg hack]; exact hs, fun hp => absurd hp hpush, fun _ => ⟨hr, ha⟩⟩

/-! ## The header loop -/

/-- The loop on arbitrary bytes keeps what every segment keeps. -/
theorem inputLoop_invariant {P : InLoop → Prop}
    (hseg : ∀ h payload st st', h.conv = st.k.conv → inputSeg pkt h payload st = .ok st' → P st → P st') :
    ∀ {n : Nat} {data : Bytes} {st st' : InLoop} {r : Option Int},
      inputLoop pkt n data st = .ok (st', r) → P st → P st' := by
  intro n
  induction n with
  | zero =>
    intro data st st' r h hp
    cases h
    exact hp
  | succ n ih =>
    intro data st st' r h hp
    rw [inputLoop] at h
    split at h
    · cases h
      exact hp
    dsimp only at h
    split at h
    · cases h
      exact hp
    rename_i hconv
    split at h
    · cases h
      exact hp
    split at h
    · cases h
      exact hp
    obtain ⟨st₁, h1, h⟩ := Go.bind_ok h
    exact ih h (hseg _ _ _ _ (Decidable.not_not.mp hconv) h1 hp)

theorem inputLoop_keeps {P : KCP → Prop}
    (hseg : ∀ h payload k k', h.conv = k.conv → SegSpec pkt h payload k k' → P k → P k')
    {n : Nat} {st st' : InLoop} {r : Option Int}
    (hl : inputLoop pkt n data st = .ok (st', r)) (hp : P st.k) : P st'.k :=
  inputLoop_invariant (P := fun st => P st.k)
    (fun h payload _ _ hc hs => hseg h payload _ _ hc (inputSeg_spec hs)) hl hp

/-- The loop over whole segments. -/
def inputSegs (pkt : PacketType) : List Segment → InLoop → Go InLoop
  | [], st => .ok st
  | w :: ws, st => do
    let st ← inputSeg pkt w.head w.bytes st
    inputSegs pkt ws st

/-- Segments the header loop accepts. -/
structure Legal (conv : UInt32) (w : Segment) : Prop where
  conv : w.conv = conv
  cmd : isCmd w.cmd = true
  len : w.len < 2 ^ 32

theorem Legal.length {conv : UInt32} {w : Segment} (h : Legal conv w) : w.head.length.toNat = w.len := by
  have := h.len
  simp only [Segment.head, Serial.toNat_u32]
  omega

/-- Each round takes a header at least, so more rounds than bytes change nothing. -/
theorem inputLoop_stable (pkt : PacketType) : ∀ (n m : Nat) {data : Bytes}, data.length ≤ n → n ≤ m → ∀ st : InLoop,
    inputLoop pkt m data st = inputLoop pkt n data st
  | 0, m, data, hn, _, st => by
    obtain rfl : data = [] := List.eq_nil_of_length_eq_zero (Nat.le_zero.mp hn)
    cases m with
    | zero => rfl
    | succ m => rfl
  | n + 1, 0, _, _, hm, _ => absurd hm (by omega)
  | n + 1, m + 1, data, hn, hm, st => by
    rw [inputLoop, inputLoop]
    split
    · rfl
    rename_i hlen
    dsimp only
    split
    · rfl
    split
    · rfl
    split
    · rfl
    refine congrArg (_ >>= ·) (funext fun st' => inputLoop_stable pkt n m ?_ (by omega) st')
    rw [List.length_drop, List.length_drop]
    unfold IKCP_OVERHEAD at hlen ⊢
    omega

/-- Whole segments at the front of the data are taken one by one. -/
theorem inputLoop_append {tail : Bytes} : ∀ {ws : List Segment} {n : Nat} {st : InLoop},
    (∀ w ∈ ws, Legal st.k.conv w) → inputLoop pkt (ws.length + n) (encodeAll ws ++ tail) st =
      (inputSegs pkt ws st >>= inputLoop pkt n tail) := by
  intro ws
  induction ws with
  | nil =>
    intro n st _
    rw [List.length_nil, Nat.zero_add]
    rfl
  | cons w ws ih =>
    intro n st hl
    have hw := hl w List.mem_cons_self
    have hcat : encodeAll (w :: ws) ++ tail = w.header ++ (w.bytes ++ (encodeAll ws ++ tail)) := by
      simp [Segment.wire]
    have hdrop : (w.header ++ (w.bytes ++ (encodeAll ws ++ tail))).drop IKCP_OVERHEAD = w.bytes ++
      (encodeAll ws ++ tail) :=
      List.drop_left' (by simp [IKCP_OVERHEAD])
    rw [List.length_cons, Nat.succ_add, inputLoop, hcat, if_neg (by simp [IKCP_OVERHEAD])]
    dsimp only
    rw [readHeader_encode, hdrop, hw.length]
    rw [if_neg (by simp [Segment.head, hw.conv]), if_neg (by simp [Segment.len]),
      if_neg (by simp [Segment.head, hw.cmd]), List.take_left' (by simp [Segment.len]),
      List.drop_left' (by simp [Segment.len]), inputSegs]
    cases h1 : inputSeg pkt w.head w.bytes st with
    | error e => rfl
    | ok st₁ =>
      simp only [Go.ok_bind]
      refine ih fun x hx => ?_
      have hc := congrArg Cfg.conv (inputSeg_spec h1).cfg
      have := hl x (List.mem_cons_of_mem _ hx)
      exact ⟨this.conv.trans hc.symm, this.cmd, this.len⟩

theorem inputLoop_encodeAll {ws : List Segment} {n : Nat} {st : InLoop}
    (hl : ∀ w ∈ ws, Legal st.k.conv w) (hn : ws.length ≤ n) :
    inputLoop pkt n (encodeAll ws) st = (inputSegs pkt ws st >>= fun st => .ok (st, none)) := by
  have hend : ∀ m st, inputLoop pkt m [] st = .ok (st, none) := by
    intro m st
    cases m with
    | zero => rfl
    | succ m => rfl
  have happ : inputLoop pkt (ws.length + (n - ws.length)) (encodeAll ws ++ []) st =
      (inputSegs pkt ws st >>= inputLoop pkt (n - ws.length) []) := inputLoop_append hl
  rw [List.append_nil, Nat.add_sub_of_le hn] at happ
  rw [happ]
  congr 1
  funext st
  exact hend _ _

/-- The loop over whole segments keeps what every segment keeps. -/
theorem inputSegs_keeps {P : KCP → Prop} :
    ∀ {ws : List Segment} {st st' : InLoop}, inputSegs pkt ws st = .ok st' →
      (∀ w ∈ ws, ∀ k k', SegSpec pkt w.head w.bytes k k' → P k → P k') → P st.k → P st'.k := by
  intro ws
  induction ws with
  | nil =>
    intro st st' h _ hp
    cases h
    exact hp
  | cons w ws ih =>
    intro st st' h hseg hp
    obtain ⟨st₁, h1, h⟩ := Go.bind_ok h
    exact ih h (fun x hx => hseg x (List.mem_cons_of_mem _ hx))
      (hseg w List.mem_cons_self _ _ (inputSeg_spec h1) hp)

/-! ## After the loop -/

theorem updateAck_same (k : KCP) (rtt : Int32) : Same k (k.updateAck rtt) := by
  unfold updateAck smoothRtt
  split <;> exact ⟨rfl, rfl, rfl, rfl⟩

theorem sampleRtt_same (pkt : PacketType) (st : InLoop) (clk : Clock) :
    Same st.k (sampleRtt pkt st clk).1 := by
  unfold sampleRtt
  split
  · dsimp only
    split
    · exact updateAck_same _ _
    · exact Same.refl _
  · exact Same.refl _

theorem growAvoid_spec {incr : UInt32} (h : k.growAvoid incr = .ok k') :
    ∃ c i, k' = { k with cwnd := c, incr := i } := by
  unfold growAvoid at h
  split at h
  · cases h
  · cases h
    exact ⟨_, _, rfl⟩

/-- The congestion window changes, and nothing else. -/
theorem growCwnd_spec {una : UInt32} (h : k.growCwnd una = .ok k') : ∃ c i, k' = { k with cwnd := c, incr := i } := by
  unfold growCwnd at h
  split at h
  · obtain ⟨a, ha, h⟩ := Go.bind_ok h
    cases h
    have hgrow : ∃ c i, a = { k with cwnd := c, incr := i } := by
      unfold growRate at ha
      split at ha
      · cases ha
        exact ⟨_, _, rfl⟩
      · exact growAvoid_spec ha
    obtain ⟨c, i, rfl⟩ := hgrow
    unfold capRate
    split
    · exact ⟨_, _, rfl⟩
    · exact ⟨c, i, rfl⟩
  · cases h
    exact ⟨k.cwnd, k.incr, rfl⟩

theorem growCwnd_same {una : UInt32} (h : k.growCwnd una = .ok k') : Same k k' := by
  obtain ⟨c, i, rfl⟩ := growCwnd_spec h
  exact ⟨rfl, rfl, rfl, rfl⟩

/-- The part of `Input` before the flush: a packet shorter than a header
changes nothing; otherwise the loop, and timers when it ran to the end. -/
theorem inputBody_spec {clk clk' : Clock}
    {ret : Option Int} {fl : Bool} (h : inputBody k data pkt clk = .ok (k', ret, fl, clk')) :
    (data.length < IKCP_OVERHEAD ∧ k' = k ∧ ret = some (-1)) ∨
      (IKCP_OVERHEAD ≤ data.length ∧ ∃ st, inputLoop pkt data.length data ⟨k, 0, false, false⟩ = .ok (st, ret) ∧
        Same st.k k' ∧ fl = st.flushSegments) := by
  unfold inputBody at h
  split at h
  · rename_i hlen
    cases h
    exact .inl ⟨hlen, rfl, rfl⟩
  · rename_i hlen
    obtain ⟨⟨st, r⟩, hl, h⟩ := Go.bind_ok h
    refine .inr ⟨Nat.le_of_not_lt hlen, st, ?_⟩
    cases r with
    | some r =>
      cases h
      exact ⟨hl, Same.refl _, rfl⟩
    | none =>
      obtain ⟨k₂, hg, h⟩ := Go.bind_ok h
      cases h
      exact ⟨hl, (sampleRtt_same pkt st clk).trans (growCwnd_same hg), rfl⟩

/-- **What an `Input` does**: the body, then nothing or one flush of the
state `k₁` it left. -/
theorem input_spec {nd : Bool} {clk : Clock} {r : Int}
    {out : List Bytes} (h : k.input data pkt nd clk = .ok (k', r, out)) :
    ∃ k₁ ret fl clk₁, inputBody k data pkt clk = .ok (k₁, ret, fl, clk₁) ∧
      ((∃ c, ret = some c ∧ r = c ∧ k' = k₁ ∧ out = []) ∨
        (ret = none ∧ r = 0 ∧ k₁.flushWanted fl nd = none ∧ k' = k₁ ∧ out = []) ∨
        (ret = none ∧ r = 0 ∧ ∃ ft nx, k₁.flushWanted fl nd = some ft ∧
          k₁.flush ft clk₁ = .ok (k', out, nx))) := by
  unfold input at h
  obtain ⟨⟨k₁, ret, fl, clk₁⟩, hb, h⟩ := Go.bind_ok h
  refine ⟨k₁, ret, fl, clk₁, hb, ?_⟩
  cases ret with
  | some c =>
    cases h
    exact .inl ⟨_, rfl, rfl, rfl, rfl⟩
  | none =>
    dsimp only at h
    split at h
    · rename_i hw
      cases h
      exact .inr (.inl ⟨rfl, rfl, hw, rfl, rfl⟩)
    · rename_i ft hw
      obtain ⟨⟨k₂, o, nx⟩, hf, h⟩ := Go.bind_ok h
      cases h
      exact .inr (.inr ⟨rfl, rfl, ft, nx, hw, hf⟩)

end KCP
end KcpGo.L2
