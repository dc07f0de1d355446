import KcpGo.L2Machine.Resend
import KcpGo.L3Protocol.Limits
import KcpGo.L3Protocol.Rto

/-!
# The next deadline (`nextUpdate`)

A full flush at time `t` returns the time to the next one. `remaining t buf`
are the distances to the timeouts of the unacknowledged segments; `nextUpdate`
is their minimum with the interval, as long as no timeout has grown to half
the range of the clock (`next_update`). A timeout grows with every
retransmission and is not bounded by the code: `backoff` follows a segment
that is never acknowledged until its timeout passes 2^31.
-/
namespace KcpGo.L2

open KcpGo.L1 KcpGo.Serial

/-- The times left to the segments that are not acknowledged. -/
def remaining (t : UInt32) (buf : List Segment) : List UInt32 := (buf.filter (·.acked ≠ 1)).map fun s => s.resendts - t

theorem remaining_cons (t : UInt32) (s : Segment) (q : List Segment) :
    remaining t (s :: q) = if s.acked ≠ 1 then (s.resendts - t) :: remaining t q else remaining t q := by
  unfold remaining
  by_cases h : s.acked = 1
  · simp [h]
  · simp [h]

/-! ## The loop -/

/-- `nearest` takes the minimum, for a segment that is not due. -/
theorem nearest_next {x : KCP.Xmit} {s : Segment} (hn : x.nextUpdate.toNat < 2 ^ 31) (hs : s.resendts ≠ x.current) :
    (KCP.nearest x s).nextUpdate = min x.nextUpdate (s.resendts - x.current) := by
  have hzero : (s.resendts - x.current).toNat ≠ 0 := by
    intro h
    apply hs
    rw [← UInt32.toNat_inj]
    have := s.resendts.toNat_lt
    have := x.current.toNat_lt
    rw [UInt32.toNat_sub] at h
    omega
  have hback : (itimediff s.resendts x.current).toUInt32 = s.resendts - x.current := rfl
  rw [← UInt32.toNat_inj, toNat_min]
  unfold KCP.nearest
  rw [hback]
  split
  · rename_i h
    have := h.2
    rw [UInt32.lt_iff_toNat_lt] at this
    dsimp only
    omega
  · rename_i h
    by_cases hpos : 0 < itimediff s.resendts x.current
    · have hle : ¬ s.resendts - x.current < x.nextUpdate := fun hlt => h ⟨hpos, hlt⟩
      rw [UInt32.lt_iff_toNat_lt] at hle
      omega
    · have := diff_pos (a := s.resendts) (b := x.current)
      have hfar : ¬ (0 < (s.resendts - x.current).toNat ∧ (s.resendts - x.current).toNat < 2 ^ 31) :=
        fun h => hpos (this.mpr h)
      omega

theorem sentAs_acked (k : KCP) (seg : Segment) (r : KCP.Reason) (t now : UInt32) (s : Segment) :
    (KCP.sentAs k seg r t now s).acked = s.acked := by
  cases r <;> rfl

theorem resendLoop_next {k : KCP} {seg : Segment} {resent t : UInt32} {n : Nat} :
    ∀ {buf buf' : List Segment} {x x' : KCP.Xmit},
    KCP.resendLoop k seg resent n buf x = .ok (buf', x') → x.current = t → (∀ i, x.clk i = t) →
      x.nextUpdate.toNat < 2 ^ 31 →
    (∀ s ∈ buf', s.acked ≠ 1 → s.resendts ≠ t) → x'.nextUpdate = (remaining t buf').foldl min x.nextUpdate := by
  intro buf
  induction buf with
  | nil =>
    intro buf' x x' h _ _ _ _
    cases h
    rfl
  | cons s q ih =>
    intro buf' x x' h hcur hclk hn hlive
    obtain ⟨⟨s₁, x₁⟩, h1, h⟩ := Go.bind_ok h
    obtain ⟨⟨q₂, x₂⟩, h2, h⟩ := Go.bind_ok h
    cases h
    have hrest : ∀ s ∈ q₂, s.acked ≠ 1 → s.resendts ≠ t := fun s hs => hlive s (List.mem_cons_of_mem _ hs)
    rw [remaining_cons]
    unfold KCP.resendOne at h1
    split at h1
    · rename_i ha
      cases h1
      rw [if_neg (by simpa using ha)]
      exact ih h2 hcur hclk hn hrest
    rename_i ha
    have hnear : ∀ (x : KCP.Xmit) (s : Segment), x.current = t → x.nextUpdate.toNat < 2 ^ 31 → s.resendts ≠ t →
        (KCP.nearest x s).nextUpdate = min x.nextUpdate (s.resendts - t) ∧
          (KCP.nearest x s).nextUpdate.toNat < 2 ^ 31 := by
      intro x s hx hb hne
      have hmin := nearest_next (s := s) hb (by rw [hx]; exact hne)
      rw [hx] at hmin
      refine ⟨hmin, ?_⟩
      rw [hmin, toNat_min]
      omega
    split at h1
    · cases h1
      rw [if_pos ha, List.foldl_cons]
      obtain ⟨hmin, hb⟩ := hnear x s hcur hn (hlive s List.mem_cons_self ha)
      rw [← hmin]
      exact ih h2 (by simpa using hcur) (by simpa using hclk) hb hrest
    · rename_i r hr
      obtain ⟨⟨s₂, x₃⟩, ht, h1⟩ := Go.bind_ok h1
      cases h1
      obtain ⟨hs₁, w, hx₃⟩ := KCP.transmit_spec ht
      have ha₁ : s₁.acked ≠ 1 := by
        rw [hs₁, sentAs_acked]
        exact ha
      have hcur₃ : x₃.current = t := by
        rw [hx₃]
        exact hclk 0
      have hclk₃ : ∀ i, x₃.clk i = t := by
        rw [hx₃]
        exact fun i => hclk (i + 1)
      have hn₃ : x₃.nextUpdate = x.nextUpdate := by
        rw [hx₃]
        rfl
      rw [if_pos ha₁, List.foldl_cons, ← hn₃]
      obtain ⟨hmin, hb⟩ := hnear x₃ s₁ hcur₃ (by rw [hn₃]; exact hn) (hlive s₁ List.mem_cons_self ha₁)
      rw [← hmin]
      exact ih h2 (by simpa using hcur₃) (by simpa using hclk₃) hb hrest

theorem flush_next {e k' : KCP} {clk : Clock} {t : UInt32} {out : List Bytes} {nx : UInt32}
    (h : e.flush .full clk = .ok (k', out, nx)) (hclk : ∀ i, clk i = t) (hn : e.interval.toNat < 2 ^ 31)
    (hlive : ∀ s ∈ k'.sndBuf, s.acked ≠ 1 → s.resendts ≠ t) : nx = (remaining t k'.sndBuf).foldl min e.interval := by
  obtain ⟨seg, w, -, -, -, h⟩ := KCP.flush_phases h
  have hfilled : (e.filled clk).1.interval = e.interval := by
    obtain ⟨p, tp, w, m, hf, -⟩ := e.filled_spec clk
    rw [hf]
  have hclock := KCP.filled_clock (T := (· = t)) e hclk
  obtain ⟨⟨buf, x⟩, hx, h⟩ := Go.bind_ok h
  obtain ⟨a, b, c, hu, -⟩ := KCP.updateCwnd_spec { (e.filled clk).1 with sndBuf := buf, state := x.state }
    (e.filled clk).1.sendWindow (e.filled clk).1.resentOf x.change x.lost
  cases h
  rw [hu] at hlive ⊢
  have hnext := resendLoop_next hx (hclock 0) (fun i => hclock (i + 1)) (by dsimp only; rw [hfilled]; exact hn) hlive
  rw [hnext, hfilled]

/-! ## The segments left -/

/-- A timer set at `t` for at most 2^31 ms is not due at `t`. -/
theorem not_due_of_rto {t rto : UInt32} (hpos : 0 < rto.toNat) (hle : rto.toNat ≤ 2 ^ 31) :
    itimediff t (t + rto) < 0 := by
  have h : 2 ^ 31 ≤ (t - (t + rto)).toNat := by
    have := t.toNat_lt
    rw [UInt32.toNat_sub, UInt32.toNat_add]
    omega
  exact diff_neg.mpr h

/-- Not due at `t`: the time left is positive, and at no time before it is
over is the segment due. -/
theorem not_due_left {t ts : UInt32} (h : itimediff t ts < 0) : 1 ≤ (ts - t).toNat ∧
    ∀ d < (ts - t).toNat, itimediff (t + u32 d) ts < 0 := by
  have hfar : 2 ^ 31 ≤ (t - ts).toNat := diff_neg.mp h
  have := t.toNat_lt
  have := ts.toNat_lt
  simp only [UInt32.toNat_sub] at hfar ⊢
  refine ⟨by omega, fun d hd => diff_neg.mpr ?_⟩
  simp only [UInt32.toNat_sub, UInt32.toNat_add, toNat_u32]
  omega

/-- The timer a segment is left with when it is sent. -/
theorem sentAs_timer {k : KCP} (hk : RtoOk k) (seg : Segment) (r : KCP.Reason) (t now : UInt32) (s : Segment)
    (hs : r = .timeout → s.rto.toNat < 2 ^ 31) :
    (KCP.sentAs k seg r t now s).resendts = t + (KCP.sentAs k seg r t now s).rto ∧
      0 < (KCP.sentAs k seg r t now s).rto.toNat := by
  have hrto := hk.rto
  cases r with
  | initial | fast | early =>
    refine ⟨rfl, ?_⟩
    show 0 < k.rxRto.toNat
    omega
  | timeout =>
    refine ⟨rfl, ?_⟩
    have := hs rfl
    show 0 < (s.rto + (if k.nodelay = 0 then k.rxRto else k.rxRto / 2)).toNat
    rw [UInt32.toNat_add]
    split
    · omega
    · have htwo : (2 : UInt32).toNat = 2 := rfl
      rw [UInt32.toNat_div, htwo]
      omega

/-- After its turn a segment is acknowledged or not due. -/
theorem turn_not_due {k : KCP} (hk : RtoOk k) {resent t : UInt32} {n : Nat} {s : Segment} {p : KCP.Pass}
    (ht : KCP.Turn k resent n (· = t) s p) (hs : s.xmit ≠ 0 → s.rto.toNat < 2 ^ 31)
    (hp : p.1.acked ≠ 1 → p.1.rto.toNat < 2 ^ 31)
    (hlive : p.1.acked ≠ 1) : itimediff t p.1.resendts < 0 := by
  cases ht with
  | acked ha => exact absurd ha hlive
  | waits ht ha hr =>
    subst ht
    unfold KCP.reason at hr
    split at hr
    · cases hr
    split at hr
    · cases hr
    split at hr
    · cases hr
    split at hr
    · cases hr
    · rename_i hdue
      exact Int32.not_le.mp hdue
  | goes ht ha hr =>
    subst ht
    rename_i seg r t now
    have htimer := sentAs_timer hk seg r t now s fun hrt => hs fun hz => by
      subst hrt
      simp [KCP.reason, hz] at hr
    dsimp only at hp hlive ⊢
    rw [htimer.1]
    exact not_due_of_rto htimer.2 (Nat.le_of_lt (hp hlive))

/-- No segment that a flush leaves is due. -/
theorem flush_not_due {e k' : KCP} {clk : Clock} {t : UInt32} {out : List Bytes} {nx : UInt32}
    (he : RtoOk e) (hok : SndOk e)
    (h : e.flush .full clk = .ok (k', out, nx)) (hclk : ∀ i, clk i = t) (hpre : ∀ s ∈ e.sndBuf, s.rto.toNat < 2 ^ 31)
    (hpost : ∀ s ∈ k'.sndBuf, s.acked ≠ 1 → s.rto.toNat < 2 ^ 31) :
    ∀ s ∈ k'.sndBuf, s.acked ≠ 1 → itimediff t s.resendts < 0 := by
  obtain ⟨p, tp, w, m, hfilled, -⟩ := e.filled_spec clk
  have hf : RtoOk (e.filled clk).1 := he.of_rx (by rw [hfilled]; rfl)
  have hbuf := KCP.flush_sndBuf h
  intro s hs hlive
  rw [hbuf] at hs
  obtain ⟨ps, hps, rfl⟩ := List.mem_map.mp hs
  obtain ⟨s, hs', hturn⟩ := KCP.passes_turn (T := (· = t)) hclk hps
  refine turn_not_due hf hturn (fun hx => ?_) (fun ha => hpost ps.1 (hbuf ▸ hs) ha) hlive
  rw [hfilled] at hs'
  rcases List.mem_append.mp hs' with hold | hnew
  · exact hpre _ hold
  · -- a segment that just entered the buffer has not been sent
    obtain ⟨q, hq, sn, rfl⟩ := numberFrom_mem hnew
    exact absurd (hok.queue q (List.mem_of_mem_take hq)).xmit hx

/-! ## The deadline -/

theorem foldl_min_le (l : List UInt32) (a : UInt32) :
    (l.foldl min a).toNat ≤ a.toNat ∧ ∀ x ∈ l, (l.foldl min a).toNat ≤ x.toNat := by
  induction l generalizing a with
  | nil => simp
  | cons y l ih =>
    have h := ih (min a y)
    rw [toNat_min] at h
    refine ⟨by rw [List.foldl_cons]; omega, fun x hx => ?_⟩
    rw [List.foldl_cons]
    rcases List.mem_cons.mp hx with rfl | hx
    · omega
    · exact h.2 x hx

theorem le_foldl_min {l : List UInt32} {a : UInt32} {n : Nat} (ha : n ≤ a.toNat) (hl : ∀ x ∈ l, n ≤ x.toNat) :
    n ≤ (l.foldl min a).toNat := by
  induction l generalizing a with
  | nil => exact ha
  | cons y l ih =>
    refine ih ?_ fun x hx => hl x (List.mem_cons_of_mem _ hx)
    have := hl y List.mem_cons_self
    rw [toNat_min]
    omega

theorem mem_remaining {t x : UInt32} {buf : List Segment} :
    x ∈ remaining t buf ↔ ∃ s ∈ buf, s.acked ≠ 1 ∧ s.resendts - t = x := by
  simp [remaining, and_assoc]

/-- **The next deadline.** A full flush at `t` returns the minimum of the
interval and the times left, at least 1; no segment it leaves is due at `t`,
or at any time before the one it returns. -/
theorem next_update (conv : UInt32) (k : KCP) (hr : (machine conv).Reachable k) (op : Op) (e k' : KCP)
    (clk : Clock) (t : UInt32)
    (out : List Bytes) (nx : UInt32) (hentry : entry k op = .ok e)
    (hclk : ∀ i, clk i = t) (hf : e.flush .full clk = .ok (k', out, nx)) (hpre : ∀ s ∈ e.sndBuf, s.rto.toNat < 2 ^ 31)
    (hpost : ∀ s ∈ k'.sndBuf, s.acked ≠ 1 → s.rto.toNat < 2 ^ 31) :
    nx = (remaining t k'.sndBuf).foldl min k'.interval ∧ 1 ≤ nx ∧
      ∀ s ∈ k'.sndBuf, s.acked ≠ 1 → itimediff t s.resendts < 0 ∧
        ∀ d < nx.toNat, itimediff (t + u32 d) s.resendts < 0 := by
  have hrto : RtoOk e := ((rtoOk_inductive conv).reachable k hr).rxStep (entry_rxStep hentry)
  have hok : SndOk e := (((sndOk_inductive conv).reachable k hr).body (entry_body hentry)).1
  have hdue := flush_not_due hrto hok hf hclk hpre hpost
  have hleft : ∀ s ∈ k'.sndBuf, s.acked ≠ 1 → 1 ≤ (s.resendts - t).toNat :=
    fun s hs ha => (not_due_left (hdue s hs ha)).1
  have hinterval : k'.interval = e.interval := congrArg RttFields.interval (KCP.flush_rx hf)
  have hint := hrto.interval
  have hnext := flush_next hf hclk (by omega) fun s hs ha h => by
    have := hleft s hs ha
    rw [h, UInt32.sub_self] at this
    exact absurd this (by decide)
  rw [hinterval]
  refine ⟨hnext, ?_, fun s hs ha => ⟨hdue s hs ha, fun d hd => ?_⟩⟩
  · rw [UInt32.le_iff_toNat_le, hnext]
    refine le_foldl_min (by show 1 ≤ _; omega) fun x hx => ?_
    obtain ⟨s, hs, ha, rfl⟩ := mem_remaining.mp hx
    exact hleft s hs ha
  · have hle := (foldl_min_le (remaining t k'.sndBuf) e.interval).2 _ (mem_remaining.mpr ⟨s, hs, ha, rfl⟩)
    rw [← hnext] at hle
    exact (not_due_left (hdue s hs ha)).2 d (by omega)

/-- One segment in flight, a flush at 0 and the next at its timeout. -/
def oneRun : List Op := [.noDelay (-1) (-1) (-1) 1, .send [1], .flush .full fun _ => 0]

theorem next_update_one : ∃ k k' out nx, exec (newKCP 7) oneRun = .ok k ∧
    k.flush .full (fun _ => 150) = .ok (k', out, nx) ∧ nx = (remaining 150 k'.sndBuf).foldl min k'.interval ∧
      nx = 50 := by
  obtain ⟨k, r, hk, hf, h1, h2, h3⟩ : ∃ k r, exec (newKCP 7) oneRun = .ok k ∧ k.flush .full (fun _ => 150) = .ok r ∧
      (∀ s ∈ k.sndBuf, s.rto.toNat < 2 ^ 31) ∧ (∀ s ∈ r.1.sndBuf, s.acked ≠ 1 → s.rto.toNat < 2 ^ 31) ∧ r.2.2 = 50 :=
    ⟨_, _, rfl, rfl, by decide +kernel⟩
  exact ⟨k, r.1, r.2.1, r.2.2, hk, hf,
    (next_update 7 k (exec_reachable hk) (.flush .full fun _ => 150) k r.1 _ 150 r.2.1 r.2.2
    rfl (fun _ => rfl) hf h1 h2).1, h3⟩

/-! ## A timeout that grows beyond 2^31 -/

/-- One segment that has timed out `n` times, with the initial estimate of
200 ms. -/
structure Backoff (n : Nat) (k : KCP) (s : Segment) : Prop where
  reachable : (machine 7).Reachable k
  sendable : Sendable poolMtu k
  queue : k.sndQueue = []
  buf : k.sndBuf = [s]
  nodelay : k.nodelay = 0
  fastresend : k.fastresend = 0
  rxRto : k.rxRto = 200
  acked : s.acked = 0
  fastack : s.fastack = 0
  xmit : s.xmit.toNat = n + 1
  rto : s.rto.toNat = 200 * (n + 1)

theorem Backoff.reason {n m : Nat} {k : KCP} {s : Segment} (h : Backoff n k s) :
    KCP.reason k.resentOf m s.resendts s = some .timeout := by
  have hx : ¬ s.xmit = 0 := by
    intro hz
    have := h.xmit
    rw [hz] at this
    exact absurd this (by simp)
  have hres : k.resentOf = 0xFFFFFFFF := by
    unfold KCP.resentOf
    rw [h.fastresend]
    rfl
  have hself : itimediff s.resendts s.resendts = 0 := by
    unfold itimediff diff
    rw [UInt32.sub_self]
    rfl
  unfold KCP.reason
  rw [if_neg hx, if_neg, if_neg, if_pos]
  · rw [hself]
    decide
  · rw [h.fastack]
    exact fun hc => absurd hc.1 (by decide)
  · rw [hres, h.fastack]
    exact fun hc => absurd hc.1 (by decide)

/-- A flush at the timeout sends the segment again and adds the estimate. -/
theorem Backoff.flush {n : Nat} {k : KCP} {s : Segment} (h : Backoff n k s) (hn : n < 2 ^ 24) : ∃ k' s' out nx,
    k.flush .full (fun _ => s.resendts) = .ok (k', out, nx) ∧ Backoff (n + 1) k' s' ∧
      s'.resendts = s.resendts + s'.rto := by
  obtain ⟨⟨k', o⟩, hstep⟩ := sendable_returns h.sendable (show InPool (.flush .full fun _ => s.resendts) from trivial)
  obtain ⟨⟨k₁, out, nx⟩, hf, hk⟩ := Go.bind_ok hstep
  cases hk
  obtain ⟨p, tp, w, m, hfilled, -⟩ := k.filled_spec fun _ => s.resendts
  rw [h.queue, List.take_nil, List.drop_nil] at hfilled
  simp only [numberFrom, List.append_nil] at hfilled
  have hclock : ∀ i, (k.filled fun _ => s.resendts).2.2 i = s.resendts :=
    KCP.filled_clock (T := (· = s.resendts)) k fun _ => rfl
  have hpass : k.passes .full (fun _ => s.resendts) =
      [(KCP.sentAs (k.filled fun _ => s.resendts).1 k.template .timeout s.resendts
        ((k.filled fun _ => s.resendts).2.2 1) s,
        some .timeout)] := by
    have hbuf : (k.filled fun _ => s.resendts).1.sndBuf = [s] := by rw [hfilled]; exact h.buf
    have hres : (k.filled fun _ => s.resendts).1.resentOf = k.resentOf := by rw [hfilled]; rfl
    unfold KCP.passes
    rw [hbuf, hclock 0, hres, KCP.passed_goes (by rw [h.acked]; decide) h.reason]
    rfl
  have hbuf := KCP.flush_sndBuf hf
  rw [hpass] at hbuf
  obtain ⟨st, hk'⟩ := KCP.flush_passes hf
  obtain ⟨a, b, c, hu, -⟩ := KCP.updateCwnd_spec
    { (k.filled fun _ => s.resendts).1 with sndBuf := (k.passes .full fun _ => s.resendts).map Prod.fst, state := st }
    (k.filled fun _ => s.resendts).1.sendWindow (k.filled fun _ => s.resendts).1.resentOf
    ((k.passes .full fun _ => s.resendts).countP KCP.Pass.quick)
      ((k.passes .full fun _ => s.resendts).countP KCP.Pass.lost)
  rw [hu, hfilled] at hk'
  have hrto : (KCP.sentAs (k.filled fun _ => s.resendts).1 k.template .timeout s.resendts
    ((k.filled fun _ => s.resendts).2.2 1) s).rto =
      s.rto + 200 := by
    rw [hfilled]
    simp [KCP.sentAs, KCP.rearm, h.nodelay, h.rxRto]
  refine ⟨k', _, out, nx, hf, ⟨?_, ?_, ?_, hbuf, ?_, ?_, ?_, ?_, rfl, ?_, ?_⟩, rfl⟩
  · exact h.reachable.step ⟨_, hstep⟩
  · exact (h.sendable.step (by decide) (fun m hm => by cases hm) hstep).1
  · rw [hk']
  · rw [hk']
    exact h.nodelay
  · rw [hk']
    exact h.fastresend
  · rw [hk']
    exact h.rxRto
  · rw [sentAs_acked]
    exact h.acked
  · show (s.xmit + 1).toNat = n + 1 + 1
    rw [UInt32.toNat_add, h.xmit, UInt32.toNat_one]
    omega
  · rw [hrto, UInt32.toNat_add, h.rto]
    have : (200 : UInt32).toNat = 200 := rfl
    omega

theorem exec_sendable {ops : List Op} {k k' : KCP} (h : exec k ops = .ok k') (hops : ∀ op ∈ ops, InPool op)
    (hk : Sendable poolMtu k) :
    Sendable poolMtu k' := by
  induction ops generalizing k with
  | nil =>
    cases h
    exact hk
  | cons op ops ih =>
    obtain ⟨⟨k₁, o⟩, h1, h⟩ := Go.bind_ok h
    exact ih h (fun op hop => hops op (List.mem_cons_of_mem _ hop))
      (hk.step (by decide) (hops op List.mem_cons_self).setMtu_le h1).1

theorem backoff_zero : ∃ k s, Backoff 0 k s := by
  obtain ⟨k, hk, h1, h2, h3, h4, h5, h6, h7, h8, h9⟩ : ∃ k, exec (newKCP 7) oneRun = .ok k ∧ k.sndQueue = [] ∧
      k.sndBuf = [k.sndBuf.headD {}] ∧ k.nodelay = 0 ∧ k.fastresend = 0 ∧ k.rxRto = 200 ∧
        (k.sndBuf.headD {}).acked = 0 ∧
      (k.sndBuf.headD {}).fastack = 0 ∧ (k.sndBuf.headD {}).xmit.toNat = 1 ∧ (k.sndBuf.headD {}).rto.toNat = 200 :=
    ⟨_, rfl, by decide +kernel⟩
  have hpool : ∀ op ∈ oneRun, InPool op := by
    intro op hop
    simp only [oneRun, List.mem_cons, List.not_mem_nil, or_false] at hop
    rcases hop with rfl | rfl | rfl
    all_goals trivial
  exact ⟨k, _, exec_reachable hk, exec_sendable hk hpool ((sendable_newKCP 7).mono (by decide)), h1, h2, h3,
    h4, h5, h6, h7, h8, h9⟩

/-- Every number of timeouts is reached. -/
theorem backoff : ∀ n, n < 2 ^ 24 → ∃ k s, Backoff n k s
  | 0, _ => backoff_zero
  | n + 1, hn => by
    obtain ⟨k, s, h⟩ := backoff n (by omega)
    obtain ⟨k', s', -, -, -, h', -⟩ := h.flush (by omega)
    exact ⟨k', s', h'⟩

/-- The timeout passes 2^31 in a flush: the segment it was just set for is due
at once. -/
theorem deadline_passed : ∃ k k' out nx t s', (machine 7).Reachable k ∧ (∀ s ∈ k.sndBuf, s.rto.toNat < 2 ^ 31) ∧
    k.flush .full (fun _ => t) = .ok (k', out, nx) ∧ s' ∈ k'.sndBuf ∧ s'.acked ≠ 1 ∧ 0 ≤ itimediff t s'.resendts := by
  obtain ⟨k, s, h⟩ := backoff 10737417 (by decide)
  obtain ⟨k', s', out, nx, hf, h', hts⟩ := h.flush (by decide)
  refine ⟨k, k', out, nx, s.resendts, s', h.reachable, ?_, hf, by simp [h'.buf], by rw [h'.acked]; decide, ?_⟩
  · intro x hx
    rw [h.buf, List.mem_singleton] at hx
    rw [hx, h.rto]
    decide
  · have hrto := h'.rto
    have := s.resendts.toNat_lt
    rw [hts]
    refine diff_nonneg.mpr ?_
    rw [UInt32.toNat_sub, UInt32.toNat_add]
    omega

end KcpGo.L2
