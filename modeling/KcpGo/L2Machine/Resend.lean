import KcpGo.L2Machine.FlushOrder
import Mathlib.Data.List.Forall2

/-!
# Phase 5 of a flush, without the writer

`passes k ft clk` pairs every segment that a flush leaves in `snd_buf` with
the reason for which it was sent, if it was. `flush_passes`: the state after
the flush is phase 6 on these segments, with the numbers of quick and of
timed-out retransmissions among the reasons. `pushSegs_passes`: the PUSH
segments written are those with a reason.
-/
namespace KcpGo.L2

open KcpGo.L1

/-- The fast and the early retransmission. -/
def KCP.Reason.quick : KCP.Reason → Bool
  | .fast | .early => true
  | .initial | .timeout => false

namespace KCP

/-- A segment after phase 5, and why it was sent. -/
abbrev Pass := Segment × Option Reason

namespace Pass

/-- `change++`. -/
def quick (p : Pass) : Bool := p.2.any Reason.quick

/-- `lostSegs++`. -/
def lost (p : Pass) : Bool := p.2 == some .timeout

end Pass

/-- The loop of phase 5 on the segments alone.
mirrors src/kcp.go:895-957 -/
def passed (k : KCP) (seg : Segment) (resent : UInt32) (newSegs : Nat) : List Segment → UInt32 → Clock → List Pass
  | [], _, _ => []
  | s :: q, current, clk =>
    if s.acked = 1 then (s, none) :: passed k seg resent newSegs q current clk
    else match reason resent newSegs current s with
      | none => (s, none) :: passed k seg resent newSegs q current clk
      | some r => (sentAs k seg r current (clk 0) s, some r) :: passed k seg resent newSegs q (clk 0) clk.tail

section
variable {k : KCP} {seg s : Segment} {resent t : UInt32} {n : Nat} {q : List Segment} {clk : Clock}

theorem passed_acked (ha : s.acked = 1) :
    passed k seg resent n (s :: q) t clk = (s, none) :: passed k seg resent n q t clk := by
  simp [passed, ha]

theorem passed_waits (ha : ¬ s.acked = 1) (hr : reason resent n t s = none) :
    passed k seg resent n (s :: q) t clk = (s, none) :: passed k seg resent n q t clk := by
  simp [passed, ha, hr]

theorem passed_goes {r : Reason} (ha : ¬ s.acked = 1) (hr : reason resent n t s = some r) :
    passed k seg resent n (s :: q) t clk = (sentAs k seg r t (clk 0) s, some r) ::
      passed k seg resent n q (clk 0) clk.tail := by
  simp [passed, ha, hr]

end

/-- One segment in phase 5: what the loop leaves of it, and the reason. `T`
holds of the clock readings. -/
inductive Turn (k : KCP) (resent : UInt32) (newSegs : Nat) (T : UInt32 → Prop) (s : Segment) : Pass → Prop where
  | acked (ha : s.acked = 1) : Turn k resent newSegs T s (s, none)
  | waits {t : UInt32} (ht : T t) (ha : ¬ s.acked = 1) (hr : reason resent newSegs t s = none) :
    Turn k resent newSegs T s (s, none)
  | goes {seg : Segment} {r : Reason} {t now : UInt32} (ht : T t) (ha : ¬ s.acked = 1)
    (hr : reason resent newSegs t s = some r) :
    Turn k resent newSegs T s (sentAs k seg r t now s, some r)

/-- Every segment has its turn. -/
theorem passed_turns {T : UInt32 → Prop} (k : KCP) (seg : Segment) (resent : UInt32) (n : Nat)
    (buf : List Segment) {t : UInt32}
    {clk : Clock} (ht : T t) (hclk : ∀ i, T (clk i)) :
    List.Forall₂ (Turn k resent n T) buf (passed k seg resent n buf t clk) := by
  induction buf generalizing t clk with
  | nil => exact .nil
  | cons s q ih =>
    by_cases ha : s.acked = 1
    · rw [passed_acked ha]
      exact .cons (.acked ha) (ih ht hclk)
    · cases hr : reason resent n t s with
      | none =>
        rw [passed_waits ha hr]
        exact .cons (.waits ht ha hr) (ih ht hclk)
      | some r =>
        rw [passed_goes ha hr]
        exact .cons (.goes ht ha hr) (ih (hclk 0) fun i => hclk (i + 1))

theorem passed_template {k : KCP} {seg seg' : Segment} (hwnd : seg'.wnd = seg.wnd)
    (huna : seg'.una = seg.una) (resent : UInt32)
    (n : Nat) (buf : List Segment) (t : UInt32) (clk : Clock) :
    passed k seg' resent n buf t clk = passed k seg resent n buf t clk := by
  induction buf generalizing t clk with
  | nil => rfl
  | cons s q ih =>
    rw [passed, passed]
    simp only [ih, sentAs, hwnd, huna]

/-- The segments written are those with a reason. -/
theorem duePushes_passed (k : KCP) (seg : Segment) (resent : UInt32) (n : Nat) (buf : List Segment)
    (t : UInt32) (clk : Clock) :
    duePushes k seg resent n buf t clk = ((passed k seg resent n buf t clk).filter (·.2.isSome)).map Prod.fst := by
  induction buf generalizing t clk with
  | nil => rfl
  | cons s q ih =>
    by_cases ha : s.acked = 1
    · rw [passed_acked ha, duePushes_acked ha, ih]
      simp
    · cases hr : reason resent n t s with
      | none =>
        rw [passed_waits ha hr, duePushes_waits ha hr, ih]
        simp
      | some r =>
        rw [passed_goes ha hr, duePushes_goes ha hr, ih]
        simp

/-! ## The loop -/

@[simp] theorem nearest_change (x : Xmit) (s : Segment) : (nearest x s).change = x.change := by
  unfold nearest; split <;> rfl

@[simp] theorem nearest_lost (x : Xmit) (s : Segment) : (nearest x s).lost = x.lost := by
  unfold nearest; split <;> rfl

/-- Sending changes the variables of the loop as `count` says. -/
theorem transmit_spec {k : KCP} {seg s s' : Segment} {r : Reason} {x x' : Xmit}
    (h : transmit k seg r s x = .ok (s', x')) :
    s' = sentAs k seg r x.current (x.clk 0) s ∧ ∃ w, x' = count k r s' x w := by
  unfold transmit at h
  obtain ⟨w₁, -, h⟩ := Go.bind_ok h
  obtain ⟨w₂, -, h⟩ := Go.bind_ok h
  cases h
  exact ⟨rfl, w₂, rfl⟩

/-- The loop leaves the segments of `passed`, and counts the reasons. -/
theorem resendLoop_passed {k : KCP} {seg : Segment} {resent : UInt32} {n : Nat} :
    ∀ {buf buf' : List Segment} {x x' : Xmit},
    resendLoop k seg resent n buf x = .ok (buf', x') →
    buf' = (passed k seg resent n buf x.current x.clk).map Prod.fst ∧
      x'.change = x.change + (passed k seg resent n buf x.current x.clk).countP Pass.quick ∧
      x'.lost = x.lost + (passed k seg resent n buf x.current x.clk).countP Pass.lost := by
  intro buf
  induction buf with
  | nil =>
    intro buf' x x' h
    cases h
    exact ⟨rfl, rfl, rfl⟩
  | cons s q ih =>
    intro buf' x x' h
    obtain ⟨⟨s₁, x₁⟩, h1, h⟩ := Go.bind_ok h
    obtain ⟨⟨q₂, x₂⟩, h2, h⟩ := Go.bind_ok h
    cases h
    obtain ⟨hbuf, hchange, hlost⟩ := ih h2
    unfold resendOne at h1
    split at h1
    · rename_i ha
      cases h1
      rw [passed_acked ha]
      exact ⟨by simp [hbuf], by simpa [Pass.quick] using hchange, by simpa [Pass.lost] using hlost⟩
    rename_i ha
    split at h1
    · rename_i hr
      cases h1
      rw [passed_waits ha hr]
      simp only [nearest_current, nearest_clk, nearest_change, nearest_lost] at hbuf hchange hlost
      exact ⟨by simp [hbuf], by simpa [Pass.quick] using hchange, by simpa [Pass.lost] using hlost⟩
    · rename_i r hr
      obtain ⟨⟨s₂, x₃⟩, ht, h1⟩ := Go.bind_ok h1
      cases h1
      obtain ⟨rfl, w, rfl⟩ := transmit_spec ht
      rw [passed_goes ha hr]
      simp only [nearest_current, nearest_clk, nearest_change, nearest_lost, count] at hbuf hchange hlost
      refine ⟨by simp [hbuf], ?_, ?_⟩
      · rw [hchange, List.countP_cons]
        cases r <;> simp [Pass.quick, Reason.quick] <;> omega
      · rw [hlost, List.countP_cons]
        cases r <;> simp [Pass.lost]
        omega

/-! ## A flush -/

/-- The segments of `snd_buf` after a flush, with the reasons. -/
def passes (k : KCP) (ft : FlushType) (clk : Clock) : List Pass :=
  match ft with
  | .full => passed (k.filled clk).1 k.template (k.filled clk).1.resentOf (k.filled clk).2.1 (k.filled clk).1.sndBuf
      ((k.filled clk).2.2 0) (k.filled clk).2.2.tail
  | .ackOnly => (k.filled clk).1.sndBuf.map fun s => (s, none)

/-- **The state after a flush.** -/
theorem flush_passes {k k' : KCP} {ft : FlushType} {clk : Clock} {out : List Bytes} {nx : UInt32}
    (h : k.flush ft clk = .ok (k', out, nx)) : ∃ st, k' = updateCwnd
      { (k.filled clk).1 with sndBuf := (k.passes ft clk).map Prod.fst, state := st } (k.filled clk).1.sendWindow
      (k.filled clk).1.resentOf ((k.passes ft clk).countP Pass.quick) ((k.passes ft clk).countP Pass.lost) := by
  obtain ⟨seg, w, hwnd, huna, -, h⟩ := flush_phases h
  obtain ⟨⟨buf, x⟩, hx, h⟩ := Go.bind_ok h
  cases h
  refine ⟨x.state, ?_⟩
  cases ft with
  | full =>
    obtain ⟨hbuf, hchange, hlost⟩ := resendLoop_passed hx
    rw [passed_template hwnd huna] at hbuf hchange hlost
    simp only [Nat.zero_add] at hchange hlost
    rw [hbuf, hchange, hlost]
    rfl
  | ackOnly =>
    cases hx
    have hq : (k.passes .ackOnly clk).countP Pass.quick = 0 := by simp [passes, Pass.quick]
    have hl : (k.passes .ackOnly clk).countP Pass.lost = 0 := by simp [passes, Pass.lost]
    have hb : (k.passes .ackOnly clk).map Prod.fst = (k.filled clk).1.sndBuf := by simp [passes, Function.comp_def]
    rw [hq, hl, hb]

theorem flush_sndBuf {k k' : KCP} {ft : FlushType} {clk : Clock} {out : List Bytes} {nx : UInt32}
    (h : k.flush ft clk = .ok (k', out, nx)) : k'.sndBuf = (k.passes ft clk).map Prod.fst := by
  obtain ⟨st, hk⟩ := flush_passes h
  obtain ⟨a, b, c, hu, -⟩ :=
    updateCwnd_spec { (k.filled clk).1 with sndBuf := (k.passes ft clk).map Prod.fst, state := st }
      (k.filled clk).1.sendWindow (k.filled clk).1.resentOf ((k.passes ft clk).countP Pass.quick)
      ((k.passes ft clk).countP Pass.lost)
  rw [hk, hu]

theorem pushSegs_passes (k : KCP) (ft : FlushType) (clk : Clock) :
    k.pushSegs ft clk = ((k.passes ft clk).filter (·.2.isSome)).map Prod.fst := by
  cases ft with
  | full => exact duePushes_passed _ _ _ _ _ _ _
  | ackOnly => simp [pushSegs, dueSegs, passes, List.filter_map]

/-- The clock after phase 4. -/
theorem filled_clock {T : UInt32 → Prop} (k : KCP) {clk : Clock} (hclk : ∀ i, T (clk i)) (i : Nat) :
    T ((k.filled clk).2.2 i) := by
  have h : (k.filled clk).2.2 = (probeTimer { k with acklist := [] } clk).2 := rfl
  rw [h]
  unfold probeTimer
  split
  · exact hclk (i + 1)
  · exact hclk i

/-- In a full flush every segment of the filled buffer has its turn. -/
theorem passes_turns (T : UInt32 → Prop) (k : KCP) (clk : Clock) (hclk : ∀ i, T (clk i)) : List.Forall₂
    (Turn (k.filled clk).1 (k.filled clk).1.resentOf (k.filled clk).2.1 T)
    (k.filled clk).1.sndBuf (k.passes .full clk) :=
  passed_turns _ _ _ _ _ (filled_clock k hclk 0) fun i => filled_clock k hclk (i + 1)

/-- Every pass of a full flush is the turn of a segment. -/
theorem passes_turn {T : UInt32 → Prop} {k : KCP} {clk : Clock} (hclk : ∀ i, T (clk i)) {p : Pass}
    (hp : p ∈ k.passes .full clk) :
    ∃ s ∈ (k.filled clk).1.sndBuf, Turn (k.filled clk).1 (k.filled clk).1.resentOf (k.filled clk).2.1 T s p := by
  obtain ⟨j, hj, hget⟩ := List.mem_iff_getElem.mp hp
  obtain ⟨hlen, hturns⟩ := List.forall₂_iff_get.mp (passes_turns T k clk hclk)
  have hturn := hturns j (by omega) hj
  rw [show (k.passes .full clk).get ⟨j, hj⟩ = p from hget] at hturn
  exact ⟨_, List.get_mem _ _, hturn⟩

/-- An ACK-only flush leaves them alone. -/
theorem passes_ackOnly (k : KCP) (clk : Clock) :
    k.passes .ackOnly clk = (k.filled clk).1.sndBuf.map fun s => (s, none) := rfl

theorem passes_length (k : KCP) (ft : FlushType) (clk : Clock) :
    (k.passes ft clk).length = (k.filled clk).1.sndBuf.length := by
  cases ft with
  | full => exact (passes_turns (fun _ => True) k clk fun _ => trivial).length_eq.symm
  | ackOnly => simp [passes_ackOnly]

end KCP
end KcpGo.L2
