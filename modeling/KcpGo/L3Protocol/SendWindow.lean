import KcpGo.Core.LTS
import KcpGo.L2Machine.StepSpec

/-!
# The send window against any peer

The send side of a control block under every operation, `Input` on arbitrary
bytes included.

* `Snd.Inv`: `snd_buf` holds `snd_una`, …, `snd_nxt - 1` in order, at most
  65535 of them, and a segment has no data exactly when it is acknowledged.
* `Evolves`: an operation drops a prefix of `snd_buf` and never clears an
  acknowledgement; only a flush then appends.
* `sender_window`: both in every reachable state, with the admission test and
  the segments transmitted.
-/
namespace KcpGo.L2

open KcpGo.L1 KcpGo.Serial

variable {k k' e : KCP}

/-- A control block as a transition system. -/
def machine (conv : UInt32) : LTS KCP Op where
  init k := k = newKCP conv
  step k op k' := ∃ o, step k op = .ok (k', o)

/-- The operations one after the other. -/
def exec : KCP → List Op → Go KCP
  | k, [] => .ok k
  | k, op :: ops => do
    let (k, _) ← step k op
    exec k ops

theorem exec_run {conv : UInt32} {ops : List Op} (h : exec k ops = .ok k') :
    (machine conv).Run k ops k' := by
  induction ops generalizing k with
  | nil =>
    cases h
    exact .nil _
  | cons op ops ih =>
    obtain ⟨⟨k₁, o⟩, h1, h⟩ := Go.bind_ok h
    exact .cons ⟨o, h1⟩ (ih h)

theorem exec_reachable {conv : UInt32} {ops : List Op} (h : exec (newKCP conv) ops = .ok k) :
    (machine conv).Reachable k :=
  ⟨_, ops, rfl, exec_run h⟩

/-- A segment of `snd_buf`. -/
structure Cell (conv : UInt32) (s : Segment) : Prop where
  conv : s.conv = conv
  cmd : s.cmd = IKCP_CMD_PUSH
  data : (s.acked = 0 ∧ s.data.isSome = true) ∨ (s.acked = 1 ∧ s.data = none)
  len : s.len ≤ maxPacketSize

namespace Snd

variable {conv : UInt32}

structure Inv (conv : UInt32) (v : Snd) : Prop where
  run : Consec Segment.sn v.una v.buf
  nxt : v.nxt = v.una + u32 v.buf.length
  len : v.buf.length ≤ 65535
  rmt : v.rmtWnd.toNat ≤ 65535
  cells : ∀ s ∈ v.buf, Cell conv s
  queue : ∀ s ∈ v.queue, Waiting s

theorem Inv.inflight {v : Snd} (h : v.Inv conv) :
    (v.nxt - v.una).toNat = v.buf.length := by
  have := h.len
  rw [h.nxt, add_u32_sub _ (by omega)]

/-- `v'` is `v` with `n` segments gone from the front. -/
structure Evolves (v v' : Snd) (n : Nat) : Prop where
  una : v'.una = v.una + u32 n
  len : n + v'.buf.length = v.buf.length
  acked : ∀ i s s', v.buf[n + i]? = some s → v'.buf[i]? = some s' → s.acked = 1 → s'.acked = 1

theorem evolves_of_buf {v v' : Snd} (hu : v'.una = v.una) (hb : v'.buf = v.buf) : Evolves v v' 0 := by
  refine ⟨by simp [hu], by simp [hb], ?_⟩
  intro i s s' h h' ha
  rw [hb] at h'
  rw [Nat.zero_add, h'] at h
  cases h
  exact ha

theorem Evolves.refl (v : Snd) : Evolves v v 0 := evolves_of_buf rfl rfl

theorem Evolves.trans {a b c : Snd} {n m : Nat} (h₁ : Evolves a b n) (h₂ : Evolves b c m) :
    Evolves a c (n + m) := by
  have := h₁.len
  have := h₂.len
  refine ⟨by rw [h₂.una, h₁.una, add_u32_assoc], by omega, ?_⟩
  intro i s s' hs hs' ha
  obtain ⟨hlt, -⟩ := List.getElem?_eq_some_iff.mp hs
  have hmid : m + i < b.buf.length := by omega
  have hget := List.getElem?_eq_getElem hmid
  have ha' := h₁.acked (m + i) s _ (by rw [← Nat.add_assoc]; exact hs) hget ha
  exact h₂.acked i _ s' hget hs' ha'

/-! ## The three things that happen to the send side -/

theorem firstSn_eq {b nxt : UInt32} {l : List Segment} (h : Consec Segment.sn b l)
    (hn : nxt = b + u32 l.length) : KCP.firstSn nxt l = b := by
  cases l with
  | nil => simpa [KCP.firstSn] using hn
  | cons s q => exact h.1

theorem head_una {v : Snd} (h : v.Inv conv) (wnd : Option UInt32) (una : UInt32) :
    (v.head wnd una).una = v.una + u32 (KCP.unaCount una v.buf) := by
  have hle := KCP.unaCount_le una v.buf
  refine firstSn_eq (h.run.drop _) ?_
  rw [h.nxt, add_u32_assoc, List.length_drop]
  congr 2
  omega

theorem Inv.head {v : Snd} (h : v.Inv conv) {wnd : Option UInt32}
    (hw : ∀ w, wnd = some w → w.toNat ≤ 65535) (una : UInt32) : (v.head wnd una).Inv conv := by
  have hle := KCP.unaCount_le una v.buf
  have hlen := h.len
  have hu := head_una h wnd una
  refine ⟨?_, ?_, ?_, ?_, ?_, h.queue⟩
  · rw [hu]
    exact h.run.drop _
  · rw [hu, add_u32_assoc]
    show v.nxt = _
    rw [h.nxt]
    simp only [Snd.head, List.length_drop]
    congr 2
    omega
  · simp only [Snd.head, List.length_drop]
    omega
  · cases wnd with
    | none => exact h.rmt
    | some w => exact hw w rfl
  · exact fun s hs => h.cells s (List.mem_of_mem_drop hs)

theorem evolves_head {v : Snd} (h : v.Inv conv) (wnd : Option UInt32) (una : UInt32) :
    Evolves v (v.head wnd una) (KCP.unaCount una v.buf) := by
  have hle := KCP.unaCount_le una v.buf
  refine ⟨head_una h wnd una, ?_, ?_⟩
  · simp only [Snd.head, List.length_drop]
    omega
  · intro i s s' hs hs' ha
    simp only [Snd.head, List.getElem?_drop] at hs'
    rw [hs] at hs'
    cases hs'
    exact ha

/-- Marking changes at most the segment numbered `sn`. -/
theorem markAcked_get {sn : UInt32} {l : List Segment} {i : Nat} {s' : Segment}
    (h : (KCP.markAcked sn l)[i]? = some s') :
    ∃ s, l[i]? = some s ∧ (s' = s ∨ (s.sn = sn ∧ s' = { s with acked := 1, data := none })) := by
  induction l generalizing i with
  | nil => simp [KCP.markAcked] at h
  | cons x q ih =>
    rw [KCP.markAcked] at h
    split at h
    · rename_i hsn
      cases i with
      | zero => exact ⟨x, rfl, .inr ⟨hsn.symm, by simpa using h.symm⟩⟩
      | succ i => exact ⟨s', by simpa using h, .inl rfl⟩
    · split at h
      · exact ⟨s', h, .inl rfl⟩
      · cases i with
        | zero => exact ⟨x, rfl, .inl (by simpa using h.symm)⟩
        | succ i =>
          obtain ⟨s, hs, hc⟩ := ih (by simpa using h)
          exact ⟨s, by simpa using hs, hc⟩

@[simp] theorem markAcked_length (sn : UInt32) (l : List Segment) :
    (KCP.markAcked sn l).length = l.length := by
  induction l with
  | nil => rfl
  | cons x q ih =>
    rw [KCP.markAcked]
    split
    · rfl
    · split <;> simp [ih]

theorem Inv.ack {v : Snd} (h : v.Inv conv) (sn : UInt32) : (v.ack sn).Inv conv := by
  unfold Snd.ack
  split
  · exact h
  · refine ⟨?_, by simpa using h.nxt, by simpa using h.len, h.rmt, ?_, h.queue⟩
    · rw [consec_iff]
      intro i s' hs'
      obtain ⟨s, hs, rfl | ⟨-, rfl⟩⟩ := markAcked_get hs'
      · exact consec_iff.mp h.run i _ hs
      · exact consec_iff.mp h.run i s hs
    · intro s' hs'
      obtain ⟨i, hi⟩ := List.getElem?_of_mem hs'
      obtain ⟨s, hs, hc⟩ := markAcked_get hi
      have hcell := h.cells s (List.mem_of_getElem? hs)
      rcases hc with rfl | ⟨-, rfl⟩
      · exact hcell
      · exact ⟨hcell.conv, hcell.cmd, .inr ⟨rfl, rfl⟩, Nat.zero_le _⟩

theorem evolves_ack (v : Snd) (sn : UInt32) : Evolves v (v.ack sn) 0 := by
  unfold Snd.ack
  split
  · exact Evolves.refl v
  · refine ⟨by simp, by simp, ?_⟩
    intro i s s' hs hs' ha
    obtain ⟨s₁, hs₁, hc⟩ := markAcked_get hs'
    rw [Nat.zero_add, hs₁] at hs
    cases hs
    rcases hc with rfl | ⟨-, rfl⟩
    · exact ha
    · rfl

theorem numberFrom_consec (conv b : UInt32) (q : List Segment) :
    Consec Segment.sn b ((numberFrom conv b q).map Segment.core) := by
  induction q generalizing b with
  | nil => trivial
  | cons s q ih => exact ⟨rfl, ih (b + 1)⟩

theorem Inv.fillWindow {v : Snd} (h : v.Inv conv) {m : Nat} (hm : m ≤ v.queue.length)
    (hlen : v.buf.length + m ≤ 65535) : (v.fillWindow conv m).Inv conv := by
  have hl : ((numberFrom conv v.nxt (v.queue.take m)).map Segment.core).length = m := by
    simp [hm]
  refine ⟨?_, ?_, ?_, h.rmt, ?_, fun s hs => h.queue s (List.mem_of_mem_drop hs)⟩
  · refine h.run.append ?_
    show Consec Segment.sn (v.una + u32 v.buf.length) _
    rw [← h.nxt]
    exact numberFrom_consec _ _ _
  · show v.nxt + u32 m = v.una + u32 (v.buf ++ _).length
    rw [List.length_append, hl, h.nxt, add_u32_assoc]
  · show (v.buf ++ _).length ≤ 65535
    rw [List.length_append, hl]
    exact hlen
  · intro s hs
    rcases List.mem_append.mp hs with hs | hs
    · exact h.cells s hs
    · obtain ⟨t, ht, rfl⟩ := List.mem_map.mp hs
      obtain ⟨q, hq, sn, rfl⟩ := numberFrom_mem ht
      have := h.queue q (List.mem_of_mem_take hq)
      exact ⟨rfl, rfl, .inl ⟨this.acked, this.data⟩, this.len⟩

theorem fillWindow_get (conv : UInt32) {v : Snd} (m : Nat) {i : Nat} {s : Segment} (hs : v.buf[i]? = some s) :
    (v.fillWindow conv m).buf[i]? = some s := by
  obtain ⟨hlt, -⟩ := List.getElem?_eq_some_iff.mp hs
  exact (List.getElem?_append_left hlt).trans hs

end Snd

/-! ## Admission -/

/-- The admission test on true distances. -/
theorem window_open {b w : UInt32} {a : Nat} (ha : a < 2 ^ 30) (hw : w.toNat ≤ 65535) :
    itimediff (b + u32 a) (b + w) < 0 ↔ a < w.toNat := by
  rw [itimediff, diff_neg, UInt32.toNat_sub, UInt32.toNat_add, UInt32.toNat_add, toNat_u32]
  have := b.toNat_lt
  omega

theorem sendWindow_toNat (k : KCP) :
    k.sendWindow.toNat ≤ k.sndWnd.toNat ∧ k.sendWindow.toNat ≤ k.rmtWnd.toNat ∧
      (k.nocwnd = 0 → k.sendWindow.toNat ≤ k.cwnd.toNat) := by
  have hmin : ∀ a b : UInt32, (min a b).toNat ≤ a.toNat ∧ (min a b).toNat ≤ b.toNat := by
    intro a b
    rw [toNat_min]
    omega
  have h1 := hmin k.sndWnd k.rmtWnd
  have h2 := hmin k.cwnd (min k.sndWnd k.rmtWnd)
  unfold KCP.sendWindow
  split
  · exact ⟨by omega, by omega, fun _ => h2.1⟩
  · rename_i hn
    exact ⟨h1.1, h1.2, fun h => absurd h hn⟩

/-- Each admission of a flush happens with fewer segments in flight than the
window, so the buffer stays within it. -/
theorem FlushSpec.inflight_lt {ft : FlushType} {clk : Clock} {m : Nat} {out : List Bytes}
    (hf : FlushSpec k ft clk m k' out) (h : k.snd.Inv k.conv) :
    ∀ j < m, k.sndBuf.length + j < k.sendWindow.toNat := by
  have hrmt : k.rmtWnd.toNat ≤ 65535 := h.rmt
  have hw := (sendWindow_toNat k).2.1
  have hlen : k.sndBuf.length ≤ 65535 := by simpa [KCP.snd] using h.len
  have hnxt : k.sndNxt = k.sndUna + u32 k.sndBuf.length := by simpa [KCP.snd] using h.nxt
  intro j
  -- the test is exact while the count is small, which the previous admission guarantees
  induction j with
  | zero =>
    intro hj
    have := hf.window 0 hj
    rw [hnxt, add_u32_assoc, window_open (by omega) (by omega)] at this
    exact this
  | succ j ih =>
    intro hj
    have hprev := ih (by omega)
    have := hf.window (j + 1) hj
    rw [hnxt, add_u32_assoc, window_open (by omega) (by omega)] at this
    exact this

theorem FlushSpec.keeps_snd {ft : FlushType} {clk : Clock} {m : Nat} {out : List Bytes}
    (hf : FlushSpec k ft clk m k' out) (h : k.snd.Inv k.conv) : k'.snd.Inv k'.conv := by
  have hconv : k'.conv = k.conv := congrArg Cfg.conv hf.cfg
  rw [hf.snd, hconv]
  refine h.fillWindow hf.count ?_
  have hlt := hf.inflight_lt h
  have hw := (sendWindow_toNat k).2.1
  have hrmt : k.rmtWnd.toNat ≤ 65535 := h.rmt
  have hlen := h.len
  have hbuf : k.snd.buf.length = k.sndBuf.length := by simp [KCP.snd]
  cases m with
  | zero => simpa using hlen
  | succ m =>
    have := hlt m (by omega)
    omega

/-! ## Every operation -/

/-- The invariant of a control block's send side. -/
def SndOk (k : KCP) : Prop := k.snd.Inv k.conv

theorem SndOk.cell (h : SndOk k) {s : Segment} (hs : s ∈ k.sndBuf) : Cell k.conv s := by
  have := h.cells s.core (List.mem_map_of_mem hs)
  exact ⟨this.conv, this.cmd, this.data, this.len⟩

theorem wndOf_le {pkt : PacketType} {h : Header} {w : UInt32} (hw : KCP.wndOf pkt h = some w) :
    w.toNat ≤ 65535 := by
  unfold KCP.wndOf at hw
  split at hw
  · cases hw
    have := h.wnd.toNat_lt
    rw [UInt16.toNat_toUInt32]
    omega
  · cases hw

theorem SndOk.seg {pkt : PacketType} {h : Header} {payload : Bytes}
    (hs : KCP.SegSpec pkt h payload k k') (hi : SndOk k) :
    SndOk k' ∧ ∃ n, k.snd.Evolves k'.snd n := by
  have hconv : k'.conv = k.conv := congrArg Cfg.conv hs.cfg
  have hhead : (k.snd.head (KCP.wndOf pkt h) h.una).Inv k.conv :=
    Snd.Inv.head hi (fun _ hw => wndOf_le hw) h.una
  have hev := Snd.evolves_head hi (KCP.wndOf pkt h) h.una
  unfold SndOk
  rw [hs.snd, hconv]
  split
  · exact ⟨hhead.ack h.sn, _, hev.trans (Snd.evolves_ack _ h.sn)⟩
  · exact ⟨hhead, _, hev⟩

theorem segSpec_sndNxt {pkt : PacketType} {h : Header} {payload : Bytes}
    (hs : KCP.SegSpec pkt h payload k k') : k'.sndNxt = k.sndNxt := by
  have hnxt := congrArg Snd.nxt hs.snd
  split at hnxt
  · unfold Snd.ack at hnxt
    split at hnxt <;> exact hnxt
  · exact hnxt

/-- The header loop, and so the body of `Input`, on any bytes. -/
theorem SndOk.inputBody {data : Bytes} {pkt : PacketType} {clk clk' : Clock}
    {ret : Option Int} {fl : Bool} (h : k.inputBody data pkt clk = .ok (e, ret, fl, clk')) (hi : SndOk k) :
    SndOk e ∧ e.sndNxt = k.sndNxt ∧ ∃ n, k.snd.Evolves e.snd n := by
  rcases KCP.inputBody_spec h with ⟨-, rfl, -⟩ | ⟨-, st, hl, hsame, -⟩
  · exact ⟨hi, rfl, 0, Snd.Evolves.refl _⟩
  · have hloop := KCP.inputLoop_keeps
      (P := fun x => SndOk x ∧ x.sndNxt = k.sndNxt ∧ ∃ n, k.snd.Evolves x.snd n)
      (fun hd payload a b _ hs ⟨hok, hnxt, n, hev⟩ => by
        obtain ⟨hok', n', hev'⟩ := SndOk.seg hs hok
        exact ⟨hok', (segSpec_sndNxt hs).trans hnxt, n + n', hev.trans hev'⟩) hl ⟨hi, rfl, 0, Snd.Evolves.refl _⟩
    obtain ⟨hok, hnxt, hev⟩ := hloop
    have hc : e.conv = st.k.conv := congrArg Cfg.conv hsame.cfg
    refine ⟨?_, (congrArg Snd.nxt hsame.snd).trans hnxt, ?_⟩
    · unfold SndOk
      rw [hsame.snd, hc]
      exact hok
    · rw [hsame.snd]
      exact hev

theorem SndOk.of_snd (hi : SndOk k) (hs : e.snd = k.snd) (hc : e.conv = k.conv) :
    SndOk e ∧ e.sndNxt = k.sndNxt ∧ ∃ n, k.snd.Evolves e.snd n := by
  refine ⟨?_, congrArg Snd.nxt hs, 0, ?_⟩
  · unfold SndOk
    rw [hs, hc]
    exact hi
  · rw [hs]
    exact Snd.Evolves.refl _

theorem SndOk.body {op : Op} (h : Body k op e) (hi : SndOk k) :
    SndOk e ∧ e.sndNxt = k.sndNxt ∧ ∃ n, k.snd.Evolves e.snd n := by
  cases h with
  | send h =>
    obtain ⟨q, rfl, hq⟩ := KCP.send_spec h
    exact ⟨⟨hi.run, hi.nxt, hi.len, hi.rmt, hi.cells, hq hi.queue⟩, rfl, 0,
      Snd.evolves_of_buf rfl rfl⟩
  | recv h =>
    obtain ⟨hs, hc, -⟩ := KCP.recv_rest h
    exact hi.of_snd hs (congrArg Cfg.conv hc)
  | input h => exact hi.inputBody h
  | wndSize a b =>
    refine hi.of_snd (KCP.wndSize_rest k a b).1 ?_
    unfold KCP.wndSize
    dsimp only
    split <;> split <;> rfl
  | noDelay a b c d =>
    refine hi.of_snd (KCP.noDelay_rest k a b c d).2.1 ?_
    unfold KCP.noDelay
    dsimp only
    split <;> split <;> split <;> split <;> rfl
  | setMtu h =>
    obtain ⟨-, hs, -, hc, -⟩ := KCP.setMtu_rest h
    exact hi.of_snd hs hc
  | setStream on => exact hi.of_snd rfl rfl
  | idle _ h => exact hi.of_snd h.snd (congrArg Cfg.conv h.cfg)

theorem sndOk_newKCP (conv : UInt32) : SndOk (newKCP conv) := by
  refine ⟨trivial, rfl, by simp [newKCP, KCP.snd], ?_, by simp [newKCP, KCP.snd], by simp [newKCP, KCP.snd]⟩
  show IKCP_WND_RCV.toNat ≤ 65535
  decide

theorem SndOk.step {op : Op} {o : Out} (h : L2.step k op = .ok (k', o)) (hi : SndOk k) :
    SndOk k' := by
  obtain ⟨e, hb, hcase⟩ := step_split h
  have hok := (hi.body hb).1
  rcases hcase with ⟨rfl, -, -⟩ | ⟨-, ft, clk, nx, hf⟩
  · exact hok
  · obtain ⟨m, hm⟩ := KCP.flush_spec hf
    exact hm.keeps_snd hok

theorem sndOk_inductive (conv : UInt32) : (machine conv).Inductive SndOk where
  init _ hk := hk ▸ sndOk_newKCP conv
  step _ _ _ hi h := by
    obtain ⟨o, ho⟩ := h
    exact hi.step ho

/-! ## The window -/

/-- The `j`-th admission of a flush from `e` finds room in the window. -/
def WindowOpen (e : KCP) (j : Nat) : Prop :=
  (e.sndNxt + u32 j - e.sndUna).toNat < min e.sndWnd.toNat e.rmtWnd.toNat ∧
    (e.nocwnd = 0 → (e.sndNxt + u32 j - e.sndUna).toNat < e.cwnd.toNat)

theorem FlushSpec.windowOpen {ft : FlushType} {clk : Clock} {m : Nat} {out : List Bytes}
    (hf : FlushSpec k ft clk m k' out) (hi : SndOk k) {j : Nat} (hj : j < m) : WindowOpen k j := by
  have hlt := hf.inflight_lt hi j hj
  obtain ⟨h1, h2, h3⟩ := sendWindow_toNat k
  have hrmt : k.rmtWnd.toNat ≤ 65535 := hi.rmt
  have hdist : (k.sndNxt + u32 j - k.sndUna).toNat = k.sndBuf.length + j := by
    have hnxt : k.sndNxt = k.sndUna + u32 k.sndBuf.length := by simpa [KCP.snd] using hi.nxt
    rw [hnxt, add_u32_assoc, add_u32_sub _ (by omega)]
  unfold WindowOpen
  rw [hdist]
  exact ⟨by omega, fun hn => by have := h3 hn; omega⟩

theorem FlushSpec.nxt_sub {ft : FlushType} {clk : Clock} {m : Nat} {out : List Bytes}
    (hf : FlushSpec k ft clk m k' out) (hi : SndOk k) : (k'.sndNxt - k.sndNxt).toNat = m := by
  have hk : k'.sndNxt = k.sndNxt + u32 m := congrArg Snd.nxt hf.snd
  have hm : m ≤ 65535 := by
    cases m with
    | zero => omega
    | succ m =>
      have := hf.inflight_lt hi m (by omega)
      have := (sendWindow_toNat k).2.1
      have hrmt : k.rmtWnd.toNat ≤ 65535 := hi.rmt
      omega
  rw [hk, add_u32_sub _ (by omega)]

/-- What `Evolves` says about the segments themselves: those that `snd_una` has
not passed stay, in their places, and acknowledged ones stay acknowledged. -/
theorem Snd.Evolves.segments {n : Nat} (hev : k.snd.Evolves e.snd n) (hi : SndOk k) (hi' : SndOk k')
    (huna : k'.sndUna = e.sndUna)
    (hstay : ∀ {i : Nat} {s}, e.snd.buf[i]? = some s → k'.snd.buf[i]? = some s) :
    (k'.sndUna - k.sndUna).toNat ≤ k.sndBuf.length ∧
      ∀ i s, k.sndBuf[(k'.sndUna - k.sndUna).toNat + i]? = some s →
        ∃ s', k'.sndBuf[i]? = some s' ∧ s'.sn = s.sn ∧ (s.acked = 1 → s'.acked = 1) := by
  have hlen := hev.len
  have hmax := hi.len
  have hun : k'.sndUna = k.sndUna + u32 n := huna.trans hev.una
  rw [hun, add_u32_sub _ (by omega)]
  refine ⟨by simp [KCP.snd] at hlen; omega, fun i s hs => ?_⟩
  have hc : k.snd.buf[n + i]? = some s.core := by simp [KCP.snd, hs]
  obtain ⟨hlt, -⟩ := List.getElem?_eq_some_iff.mp hc
  have hmid := List.getElem?_eq_getElem (show i < e.snd.buf.length by omega)
  obtain ⟨s', hs', hcore⟩ : ∃ s', k'.sndBuf[i]? = some s' ∧ s'.core = e.snd.buf[i] := by
    simpa [KCP.snd] using hstay hmid
  have hc' : k'.snd.buf[i]? = some s'.core := by simp [KCP.snd, hs']
  refine ⟨s', hs', ?_, fun ha => ?_⟩
  · have h1 := consec_iff.mp hi.run _ _ hc
    have h2 := consec_iff.mp hi'.run _ _ hc'
    rw [show k'.snd.una = _ from hun, add_u32_assoc] at h2
    exact h2.trans h1.symm
  · have hacked := hev.acked i _ _ hc hmid ha
    rw [← hcore] at hacked
    exact hacked

/-- **The send window, in every reachable state and across every operation.** -/
theorem sender_window (conv : UInt32) (k : KCP) (hr : (machine conv).Reachable k) :
    k.sndBuf.map Segment.sn =
        (List.range (k.sndNxt - k.sndUna).toNat).map (fun j => k.sndUna + u32 j) ∧
      (k.sndNxt - k.sndUna).toNat ≤ 65535 ∧
      (∀ s ∈ k.sndBuf, (s.acked = 0 ∨ s.acked = 1) ∧ (s.data = none ↔ s.acked = 1)) ∧
      ∀ op k' o, step k op = .ok (k', o) →
        (∀ j < (k'.sndNxt - k.sndNxt).toNat,
          ∃ e, flushEntry k op = some e ∧ e.sndNxt = k.sndNxt ∧ WindowOpen e j) ∧
        (k'.sndUna - k.sndUna).toNat ≤ k.sndBuf.length ∧
        (∀ i s, k.sndBuf[(k'.sndUna - k.sndUna).toNat + i]? = some s →
          ∃ s', k'.sndBuf[i]? = some s' ∧ s'.sn = s.sn ∧ (s.acked = 1 → s'.acked = 1)) ∧
        ∀ p ∈ o.pkts, Carries (fun w => w.cmd = IKCP_CMD_PUSH → w ∈ k'.sndBuf ∧ w.acked = 0) p := by
  have hi : SndOk k := (sndOk_inductive conv).reachable k hr
  have hrun : Consec Segment.sn k.sndUna k.sndBuf := by
    rw [consec_iff]
    intro i s hs
    exact consec_iff.mp hi.run i s.core (by simp [KCP.snd, hs])
  have hinfl : (k.sndNxt - k.sndUna).toNat = k.sndBuf.length := by
    simpa [KCP.snd] using Snd.Inv.inflight hi
  refine ⟨by rw [hinfl]; exact hrun.map_eq, by rw [hinfl]; simpa [KCP.snd] using hi.len, ?_, ?_⟩
  · intro s hs
    rcases (hi.cell hs).data with ⟨ha, hd⟩ | ⟨ha, hd⟩
    · refine ⟨.inl ha, fun h => ?_, fun h => ?_⟩
      · rw [h] at hd; cases hd
      · rw [ha] at h; cases h
    · exact ⟨.inr ha, fun _ => ha, fun _ => hd⟩
  · intro op k' o hstep
    have hi' := hi.step hstep
    obtain ⟨e, hb, hcase⟩ := step_split hstep
    obtain ⟨hok, hnxt, n, hev⟩ := hi.body hb
    rcases hcase with ⟨rfl, hp, -⟩ | ⟨he, ft, clk, nx, hf⟩
    · obtain ⟨hpassed, hkept⟩ := hev.segments hi hi' rfl id
      refine ⟨?_, hpassed, hkept, by simp [hp]⟩
      intro j hj
      rw [hnxt, UInt32.sub_self] at hj
      simp at hj
    · obtain ⟨m, hm⟩ := KCP.flush_spec hf
      obtain ⟨hpassed, hkept⟩ := hev.segments hi hi' (congrArg Snd.una hm.snd) fun hs => by
        rw [hm.snd]
        exact Snd.fillWindow_get _ m hs
      refine ⟨?_, hpassed, hkept, ?_⟩
      · intro j hj
        rw [← hnxt, hm.nxt_sub hok] at hj
        exact ⟨e, he, hnxt, hm.windowOpen hok hj⟩
      · intro p hp
        refine (hm.packets p hp).mono ?_
        rintro w (hw | hw) hcmd
        · rcases hw.kind with ⟨h, -⟩ | h | h
          all_goals
            rw [hcmd] at h
            exact absurd h (by decide)
        · refine ⟨hw.mem, ?_⟩
          rcases (hi'.cell hw.mem).data with ⟨ha, -⟩ | ⟨ha, -⟩
          · exact ha
          · exact absurd ha hw.live

/-- A run that sends, flushes and is acknowledged by a hostile una. -/
def windowRun : List Op :=
  [.noDelay 0 10 0 1, .send [1, 2], .send [3], .flush .full fun _ => 5,
    .input (({ conv := 7, cmd := IKCP_CMD_ACK, wnd := 9, sn := 1, una := 0xFFFFFFF0 } : Segment).wire)
      .regular false fun _ => 6]

theorem sender_window_hostile : ∃ k, exec (newKCP 7) windowRun = .ok k ∧
    k.sndBuf.map (fun s => (s.sn, s.acked, s.data)) = [(0, 0, some [1, 2]), (1, 1, none)] ∧
    (k.sndNxt - k.sndUna).toNat ≤ 65535 := by
  obtain ⟨k, hk, hb⟩ : ∃ k, exec (newKCP 7) windowRun = .ok k ∧
      k.sndBuf.map (fun s => (s.sn, s.acked, s.data)) = [(0, 0, some [1, 2]), (1, 1, none)] :=
    ⟨_, rfl, by decide +kernel⟩
  exact ⟨k, hk, hb, (sender_window 7 k (exec_reachable hk)).2.1⟩

end KcpGo.L2
