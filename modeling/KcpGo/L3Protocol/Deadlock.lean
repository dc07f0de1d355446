import KcpGo.L2Machine.Room
import KcpGo.L3Protocol.Refine

/-!
# Both sides silent

Nothing is on the way, one side still has something to send, the other side
has read everything. Can a flush make either of them speak again?

* `silent_deadlock`: not always. A window from an old copy of a packet opens
  the sender's window after a newer one has closed it; the sender fills it,
  the receiver acknowledges out of order, and the same old copy opens the
  window again. The sender's buffer is then full of acknowledged segments: no
  retransmission, no room for the next segment, and no probe because the
  window is not 0.
* `no_silent_deadlock`: always, in the runs in which no packet the sender
  hears opens its window from the past.
-/
namespace KcpGo.L3

open KcpGo.L1 KcpGo.L2 KcpGo.Serial
open KcpGo.Link (Tx Rx ProbeInv)

variable {k k' : KCP} {a : Side} {conv t : UInt32}

/-- Full flushes one after the other: everything passed to `output`. -/
def flushAll (ks : Side → KCP) : List (Side × Clock) → Go (List Bytes)
  | [] => .ok []
  | (s, clk) :: es => do
    let (k, out, _) ← (ks s).flush .full clk
    let rest ← flushAll (Function.update ks s k) es
    .ok (out ++ rest)

/-- From any time on, some full flushes, each no earlier than the one before,
pass a packet of 24 bytes or more to `output`. -/
def CanSpeak (y : Sys) : Prop :=
  ∀ t₀ : Nat, ∃ es : List (Side × Nat), (t₀ :: es.map Prod.snd).Pairwise (· ≤ ·) ∧
    ∃ out, flushAll (fun s => (y.ends s).kcp) (es.map fun e => (e.1, fun _ => u32 e.2)) = .ok out ∧
      ∃ p ∈ out, 24 ≤ p.length

/-- No packet on the way, `a` has something to send, its peer has read
everything. -/
structure Waits (y : Sys) (a : Side) : Prop where
  net : ∀ s, y.net s = []
  pending : (y.ends a).kcp.sndQueue ≠ [] ∨ (y.ends a).kcp.sndBuf ≠ []
  read : (y.ends a.peer).kcp.rcvQueue = []

/-- Only `a` sends, and the windows stay as they were set up. -/
def OneWay (a : Side) : Ev → Prop
  | .app s op => (∀ snd rcv, op ≠ .wndSize snd rcv) ∧ (s ≠ a → ∀ b, op ≠ .send b)
  | _ => True

def oneWay (conv : UInt32) (c : Side → Setup) (a : Side) : LTS Sys Ev :=
  (system conv c).restrict fun _ e _ => OneWay a e

/-! ## Silence -/

/-- Nothing a flush could send, and nothing that could change this. -/
structure Mute (k : KCP) : Prop where
  acklist : k.acklist = []
  probe : k.probe = 0
  rmtWnd : k.rmtWnd ≠ 0
  acked : ∀ s ∈ k.sndBuf, s.acked = 1
  full : k.sndQueue = [] ∨
    (k.sndWnd.toNat ≤ (k.sndNxt - k.sndUna).toNat ∧ (k.sndNxt - k.sndUna).toNat ≤ 65535)

instance (k : KCP) : Decidable (Mute k) :=
  decidable_of_iff (k.acklist = [] ∧ k.probe = 0 ∧ k.rmtWnd ≠ 0 ∧ (∀ s ∈ k.sndBuf, s.acked = 1) ∧
    (k.sndQueue = [] ∨
      (k.sndWnd.toNat ≤ (k.sndNxt - k.sndUna).toNat ∧ (k.sndNxt - k.sndUna).toNat ≤ 65535)))
    ⟨fun ⟨h1, h2, h3, h4, h5⟩ => ⟨h1, h2, h3, h4, h5⟩, fun h => ⟨h.acklist, h.probe, h.rmtWnd, h.acked, h.full⟩⟩

theorem resendLoop_acked {seg : Segment} {resent : UInt32} {n : Nat} : ∀ {l : List Segment} {x : KCP.Xmit},
    (∀ s ∈ l, s.acked = 1) → KCP.resendLoop k seg resent n l x = .ok (l, x) := by
  intro l
  induction l with
  | nil => exact fun _ => rfl
  | cons s q ih =>
    intro x h
    rw [KCP.resendLoop, KCP.resendOne, if_pos (h s List.mem_cons_self), Go.ok_bind]
    simp only [ih fun r hr => h r (List.mem_cons_of_mem _ hr), Go.ok_bind]

/-- The window is full: phase 4 admits nothing. -/
theorem Mute.fillWindow (h : Mute k) {w : UInt32} (hw : w.toNat ≤ k.sndWnd.toNat) (e : KCP)
    (hu : e.sndUna = k.sndUna) (hn : e.sndNxt = k.sndNxt) :
    KCP.fillWindow w e k.sndQueue = ({ e with sndQueue := k.sndQueue }, 0) := by
  cases hq : k.sndQueue with
  | nil => rfl
  | cons s q =>
    rcases h.full with hnil | ⟨h1, h2⟩
    · rw [hq] at hnil
      cases hnil
    · rw [KCP.fillWindow, if_pos]
      rw [hu, hn, itimediff, diff_nonneg]
      have h3 := k.sndNxt.toNat_lt
      have h4 := k.sndUna.toNat_lt
      simp only [UInt32.toNat_sub, UInt32.toNat_add] at *
      omega

/-- With every segment acknowledged phase 5 sends nothing. -/
theorem flushData_acked (h : ∀ s ∈ k.sndBuf, s.acked = 1) (clk : Clock) (seg : Segment) (n : Nat) :
    KCP.flushData k .full clk seg n ⟨[], []⟩ =
      .ok (KCP.updateCwnd k k.sendWindow k.resentOf 0 0, [], k.interval) := by
  simp only [KCP.flushData, KCP.resendBuf, resendLoop_acked h, Go.ok_bind]
  rfl

/-- A mute control block after phase 4. -/
def quiet (k : KCP) : KCP := { k with acklist := [], tsProbe := 0, probeWait := 0, probe := 0 }

theorem Mute.flush_eq (h : Mute k) (clk : Clock) :
    k.flush .full clk = KCP.flushData (quiet k) .full clk k.template 0 ⟨[], []⟩ := by
  have hpt : KCP.probeTimer { k with acklist := [] } clk =
      ({ k with acklist := [], tsProbe := 0, probeWait := 0 }, clk) := if_neg h.rmtWnd
  have hprobes : KCP.flushProbes { k with acklist := [], tsProbe := 0, probeWait := 0 } k.template ⟨[], []⟩ =
      .ok (k.template, ⟨[], []⟩) := by
    have hzero : ∀ flag : UInt32, ¬ (k.probe &&& flag ≠ 0) := by
      intro flag
      rw [h.probe]
      simp
    simp only [KCP.flushProbes, KCP.flushProbe, if_neg (hzero _), Go.ok_bind]
  have hadm : KCP.fillWindow (KCP.sendWindow { k with acklist := [], tsProbe := 0, probeWait := 0 })
    (quiet k) k.sndQueue =
      (quiet k, 0) := h.fillWindow (sendWindow_toNat k).1 _ rfl rfl
  unfold KCP.flush
  rw [h.acklist, KCP.flushAcks, Go.ok_bind]
  simp only [hpt, hprobes, Go.ok_bind]
  show KCP.flushData (KCP.fillWindow _ (quiet k) k.sndQueue).1 .full clk k.template
    (KCP.fillWindow _ (quiet k) k.sndQueue).2 ⟨[], []⟩ = _
  rw [hadm]

/-- **A mute control block stays mute.** -/
theorem Mute.flush (h : Mute k) (clk : Clock) :
    ∃ k' nx, k.flush .full clk = .ok (k', [], nx) ∧ Mute k' := by
  obtain ⟨ss, cw, inc, hcw, -⟩ := KCP.updateCwnd_spec (quiet k) (quiet k).sendWindow (quiet k).resentOf 0 0
  have hdata := flushData_acked (k := quiet k) h.acked clk k.template 0
  refine ⟨_, _, (h.flush_eq clk).trans hdata, ?_⟩
  rw [hcw]
  exact ⟨rfl, rfl, h.rmtWnd, h.acked, h.full⟩

theorem flushAll_mute : ∀ {es : List (Side × Clock)} {ks : Side → KCP}, (∀ s, Mute (ks s)) →
    flushAll ks es = .ok [] := by
  intro es
  induction es with
  | nil => exact fun _ => rfl
  | cons e es ih =>
    intro ks h
    obtain ⟨s, clk⟩ := e
    obtain ⟨k', nx, hf, hk'⟩ := (h s).flush clk
    have hrest : flushAll (Function.update ks s k') es = .ok [] := by
      refine ih fun u => ?_
      by_cases hu : u = s
      · subst hu
        simpa using hk'
      · rw [Function.update_of_ne hu]
        exact h u
    simp only [flushAll, hf, Go.ok_bind, hrest]
    rfl

theorem not_canSpeak {y : Sys} (h : ∀ s, Mute (y.ends s).kcp) : ¬ CanSpeak y := by
  intro hc
  obtain ⟨es, -, out, hout, p, hp, -⟩ := hc 0
  rw [flushAll_mute h] at hout
  cases hout
  cases hp

/-! ## The deadlock -/

/-- Windows of one segment on both sides. -/
def narrow : Side → Setup := fun _ => { sndWnd := 1, rcvWnd := 1 }

/-- The acknowledgement of number 0, which opens the window, is heard three
times: when it arrives, after the one of number 1, which closed the window,
and after the one of number 2, which arrived while 1 was unread. The packet
that would open the window at last is lost. -/
def deadlockRun : List Ev :=
  [.app .A (.send [0]), .app .A (.send [1]), .app .A (.send [2]), .app .A (.send [3]),
    .app .A (.flush .full fun _ => 1), .app .A (.flush .full fun _ => 2),
    .deliver .B 0 false .regular false fun _ => 3, .app .B (.recv 10), .app .B (.flush .full fun _ => 4),
    .deliver .A 0 true .regular false fun _ => 5,
    .deliver .B 0 false .regular false fun _ => 7, .app .B (.flush .full fun _ => 8),
    .deliver .A 1 false .regular false fun _ => 9, .deliver .A 0 true .regular false fun _ => 10,
    .app .A (.flush .full fun _ => 11), .deliver .B 0 false .regular false fun _ => 12,
    .app .B (.flush .full fun _ => 13), .deliver .A 1 false .regular false fun _ => 14,
    .deliver .A 0 false .regular false fun _ => 15, .app .B (.recv 10), .app .B (.recv 10),
    .app .B (.flush .full fun _ => 16), .drop .A 0]

/-- Events of a one-way run. -/
def oneWayEv (a : Side) (_ : Sys) : Ev → Bool
  | .app _ (.wndSize _ _) => false
  | .app s (.send _) => decide (s = a)
  | _ => true

theorem oneWay_of_ev {y : Sys} {e : Ev} (h : oneWayEv a y e = true) : OneWay a e := by
  cases e with
  | deliver s i keep pkt nd clk => trivial
  | drop s i => trivial
  | app s op =>
    cases op with
    | wndSize snd rcv => cases h
    | send b => exact ⟨fun _ _ hc => (by cases hc), fun hne => absurd (of_decide_eq_true h) hne⟩
    | _ => exact ⟨fun _ _ hc => (by cases hc), fun _ _ hc => (by cases hc)⟩

/-- **A silent deadlock is reachable.** -/
theorem silent_deadlock : ∃ y, (oneWay 7 narrow .A).Reachable y ∧ Waits y .A ∧ ¬ CanSpeak y := by
  obtain ⟨y, hy, hnet, hq, hr, hm⟩ : ∃ y, play (oneWayEv .A) (initial 7 narrow) deadlockRun = some y ∧
      (y.net .A = [] ∧ y.net .B = []) ∧ (y.ends .A).kcp.sndQueue ≠ [] ∧ (y.ends .B).kcp.rcvQueue = [] ∧
      (Mute (y.ends .A).kcp ∧ Mute (y.ends .B).kcp) :=
    ⟨_, rfl, ⟨rfl, rfl⟩, by decide +kernel, by decide +kernel, by decide +kernel⟩
  refine ⟨y, ⟨_, deadlockRun, rfl, LTS.play_run (M := oneWay 7 narrow .A)
    (fun _ _ _ hg hn => ⟨hn, oneWay_of_ev hg⟩) hy⟩,
    ⟨?_, .inl hq, hr⟩, not_canSpeak ?_⟩
  · intro s
    cases s
    · exact hnet.1
    · exact hnet.2
  · intro s
    cases s
    · exact hm.1
    · exact hm.2

/-! ## Runs in order -/

/-- What `a` hears is regular, and if it advertises an open window then its
una is not behind `snd_una`. -/
def HeardInOrder (a : Side) (y : Sys) : Ev → Prop
  | .deliver s i _ pkt _ _ => s = a → pkt = .regular ∧ ∀ p, (y.net s)[i]? = some p →
    (readHeader p.bytes).wnd ≠ 0 → (y.ends s).cnt.una ≤ (p.stamp s.peer).rcv
  | _ => True

/-- The one-way runs in which every packet arrives fresh and `a` hears in
order. -/
def orderly (conv : UInt32) (c : Side → Setup) (a : Side) : LTS Sys Ev :=
  (oneWay conv c a).restrict fun y e y' => FreshStep y e y' ∧ HeardInOrder a y e

theorem orderly_mode {c : Side → Setup} {y : Sys} (h : (orderly conv c a).Reachable y) :
    (modeSystem conv c (fun _ => True) (fun s => s = a)).Reachable y := by
  refine LTS.Reachable.mono (M := orderly conv c a) (N := modeSystem conv c (fun _ => True) (fun s => s = a))
    (fun _ hi => hi) (fun y e y' hs => ⟨⟨hs.1.1, hs.2.1⟩, ?_⟩) h
  obtain ⟨⟨-, hone⟩, -, hord⟩ := hs
  cases e with
  | app s op =>
    intro _
    cases op with
    | wndSize snd rcv => exact absurd rfl (hone.1 snd rcv)
    | _ => trivial
  | deliver s i keep pkt nd clk => exact hord
  | drop s i => trivial

/-- What the windows and buffers of `a` keep in a one-way run. -/
structure Settings (c : Setup) (k : KCP) : Prop where
  sndWnd : k.sndWnd = c.sndWnd
  roomy : Roomy k

theorem Settings.step {c : Setup} {op : Op} {o : Out} (h : Settings c k)
    (hs : step k op = .ok (k', o)) (hop : Allowed op) (hw : ∀ snd rcv, op ≠ .wndSize snd rcv) : Settings c k' := by
  have hmtu : ∀ m, op = .setMtu m → m ≤ maxPacketSize := by
    rintro m rfl
    rcases hop with hop | ⟨_, _, _, _, hop⟩
    · simpa [appOp, maxPacketSize] using hop
    · cases hop
  refine ⟨?_, step_roomy hs (fun m hm => Int.le_trans (hmtu m hm) (by decide)) h.roomy⟩
  obtain ⟨e, hb, hcfg⟩ := step_cfg hs
  have hk : k'.sndWnd = e.sndWnd := congrArg Cfg.sndWnd hcfg
  rw [hk, ← h.sndWnd]
  exact hb.sndWnd hw

theorem settings_reachable {c : Side → Setup} (u : Side) :
    ∀ y, (oneWay conv c a).Reachable y → Settings (c u) (y.ends u).kcp := by
  refine LTS.Inductive.reachable ⟨?_, ?_⟩
  · rintro y rfl
    exact ⟨rfl, (roomy_newKCP conv).of_same rfl ⟨rfl, rfl, rfl⟩⟩
  · rintro y e y' hset ⟨hn, hone⟩
    replace hn : next y e = some y' := hn
    -- an operation at `u` or at its peer
    have key : ∀ {y₁ : Sys} {s : Side} {op : Op}, y₁.ends = y.ends → act y₁ s op = some y' → Allowed op →
        (∀ snd rcv, op ≠ .wndSize snd rcv) → Settings (c u) (y'.ends u).kcp := by
      intro y₁ s op hends hact hop hw
      obtain ⟨k', o, hstep, hself, hpeer, -, -⟩ := act_spec hact
      rw [hends] at hstep hpeer hself
      rcases Side.eq_or_peer s u with rfl | rfl
      · rw [hself]
        exact hset.step hstep hop hw
      · rw [hpeer]
        exact hset
    cases e with
    | app s op =>
      simp only [next] at hn
      split at hn
      · rename_i hop
        exact key rfl hn (.inl hop) hone.1
      · cases hn
    | drop s i =>
      cases hn
      exact hset
    | deliver s i keep pkt nd clk =>
      simp only [next] at hn
      split at hn
      · cases hn
      · refine key ?_ hn (.inr ⟨_, _, _, _, rfl⟩) (fun _ _ hc => by cases hc)
        cases keep <;> rfl

/-! ## Speaking again -/

theorem exists_time (t₀ : Nat) (t : UInt32) : ∃ n, t₀ ≤ n ∧ u32 n = t := by
  refine ⟨t₀ * 2 ^ 32 + t.toNat, by omega, ?_⟩
  rw [← UInt32.toNat_inj, toNat_u32]
  have := t.toNat_lt
  omega

/-- A flush at the constant time `t`. -/
theorem flush_at (h : Roomy k) (t : UInt32) :
    ∃ k' out nx m, k.flush .full (fun _ => t) = .ok (k', out, nx) ∧ FlushSpec k .full (fun _ => t) m k' out := by
  obtain ⟨⟨k', out, nx⟩, hf⟩ := KCP.flush_ok h .full fun _ => t
  obtain ⟨m, hm⟩ := KCP.flush_spec hf
  exact ⟨k', out, nx, m, hf, hm⟩

/-- One flush of `a` that sends something. -/
theorem speaks_once {ks : Side → KCP} {out : List Bytes} {nx : UInt32}
    (hf : (ks a).flush .full (fun _ => t) = .ok (k', out, nx)) (hp : ∃ p ∈ out, 24 ≤ p.length) :
    ∃ o, flushAll ks [(a, fun _ => t)] = .ok o ∧ ∃ p ∈ o, 24 ≤ p.length := by
  refine ⟨out ++ [], ?_, ?_⟩
  · simp only [flushAll, hf, Go.ok_bind]
  · rw [List.append_nil]
    exact hp

/-- A first flush of `a`, then one that sends something. -/
theorem speaks_twice {ks : Side → KCP} {t' : UInt32} {k'' : KCP} {out out' : List Bytes}
    {nx nx' : UInt32} (hf : (ks a).flush .full (fun _ => t) = .ok (k', out, nx))
    (hf' : k'.flush .full (fun _ => t') = .ok (k'', out', nx')) (hp : ∃ p ∈ out', 24 ≤ p.length) :
    ∃ o, flushAll ks [(a, fun _ => t), (a, fun _ => t')] = .ok o ∧ ∃ p ∈ o, 24 ≤ p.length := by
  obtain ⟨p, hp, hl⟩ := hp
  refine ⟨out ++ (out' ++ []), ?_, p, ?_, hl⟩
  · simp only [flushAll, hf, Go.ok_bind, Function.update_self, hf']
  · exact List.mem_append_right _ (List.mem_append_left _ hp)

/-- What `CanSpeak` asks for, from the time `t₀` on. -/
def SpeaksFrom (ks : Side → KCP) (t₀ : Nat) : Prop :=
  ∃ es : List (Side × Nat), (t₀ :: es.map Prod.snd).Pairwise (· ≤ ·) ∧
    ∃ out, flushAll ks (es.map fun e => (e.1, fun _ => u32 e.2)) = .ok out ∧ ∃ p ∈ out, 24 ≤ p.length

/-- An unacknowledged segment is sent again when its time has come. -/
theorem speaks_resend (ks : Side → KCP) (hr : Roomy (ks a)) {s : Segment} (hs : s ∈ (ks a).sndBuf)
    (ha : s.acked ≠ 1) (t₀ : Nat) : SpeaksFrom ks t₀ := by
  obtain ⟨n, hn, ht⟩ := exists_time t₀ s.resendts
  obtain ⟨k', out, nx, m, hf, hspec⟩ := flush_at hr s.resendts
  have hdue : Due s.resendts s := by
    refine ⟨ha, .inr ?_⟩
    rw [itimediff, diff_nonneg]
    simp
  have hp := hspec.sends rfl s.resendts (fun _ => rfl) ⟨s, List.mem_append_left _ hs, hdue⟩
  refine ⟨[(a, n)], by simpa using hn, ?_⟩
  simp only [List.map_cons, List.map_nil, ht]
  exact speaks_once hf hp

theorem asks_send (x : UInt32) : (x ||| IKCP_ASK_SEND) &&& IKCP_ASK_SEND ≠ 0 := by
  have h : (x ||| 1) &&& 1 = 1 := by
    apply UInt32.toBitVec_inj.mp
    simp only [UInt32.toBitVec_and, UInt32.toBitVec_or, UInt32.toBitVec_one]
    ext i hi
    rw [BitVec.getElem_and, BitVec.getElem_or]
    cases x.toBitVec[i] <;> simp
  rw [show IKCP_ASK_SEND = 1 from rfl, h]
  decide

/-- The probe timer runs out: the next flush asks for the window. -/
theorem probe_asks (hz : k.rmtWnd = 0) (hw : k.probeWait ≠ 0) :
    (KCP.probeTimer k fun _ => k.tsProbe).1.probe &&& IKCP_ASK_SEND ≠ 0 := by
  have hnow : 0 ≤ itimediff k.tsProbe k.tsProbe := by
    rw [itimediff, diff_nonneg]
    simp
  unfold KCP.probeTimer
  rw [if_pos hz, if_neg hw, if_pos hnow]
  exact asks_send _

/-- A closed window is probed, at the latest after the timer was set. -/
theorem speaks_probe (ks : Side → KCP) (hr : Roomy (ks a)) (hz : (ks a).rmtWnd = 0) (t₀ : Nat) :
    SpeaksFrom ks t₀ := by
  by_cases hw : (ks a).probeWait = 0
  · -- the first flush sets the timer
    obtain ⟨k', out, nx, m, hf, hspec⟩ := flush_at hr (u32 t₀)
    have hz' : k'.rmtWnd = 0 := (congrArg Snd.rmtWnd hspec.snd).trans hz
    have hw' : k'.probeWait ≠ 0 := by
      rw [hspec.probeWait]
      unfold KCP.probeTimer
      rw [if_pos hz, if_pos hw]
      show IKCP_PROBE_INIT ≠ 0
      decide
    obtain ⟨n, hn, ht⟩ := exists_time t₀ k'.tsProbe
    obtain ⟨k'', out', nx', m', hf', hspec'⟩ := flush_at (hspec.roomy hr) k'.tsProbe
    refine ⟨[(a, t₀), (a, n)], by simpa using hn, ?_⟩
    simp only [List.map_cons, List.map_nil, ht]
    exact speaks_twice hf hf' (hspec'.asks (probe_asks hz' hw'))
  · obtain ⟨n, hn, ht⟩ := exists_time t₀ (ks a).tsProbe
    obtain ⟨k', out, nx, m, hf, hspec⟩ := flush_at hr (ks a).tsProbe
    refine ⟨[(a, n)], by simpa using hn, ?_⟩
    simp only [List.map_cons, List.map_nil, ht]
    exact speaks_once hf (hspec.asks (probe_asks hz hw))

/-- A flush that numbers a segment sends it. -/
theorem fillWindow_speaks {m : Nat} {out : List Bytes} (hok : SndOk k)
    (hf : FlushSpec k .full (fun _ => t) m k' out) (hm : 0 < m) : ∃ p ∈ out, 24 ≤ p.length := by
  have hcount := hf.count
  cases hq : k.sndQueue with
  | nil =>
    rw [hq] at hcount
    simp only [List.length_nil] at hcount
    omega
  | cons s q =>
    obtain ⟨m', rfl⟩ := Nat.exists_eq_succ_of_ne_zero (Nat.pos_iff_ne_zero.mp hm)
    have hwait := hok.queue s (by show s ∈ k.sndQueue; rw [hq]; exact List.mem_cons_self)
    refine hf.sends rfl t (fun _ => rfl) ⟨KCP.numbered k.conv k.sndNxt s,
      List.mem_append_right _ ?_, ?_, .inl hwait.xmit⟩
    · rw [hq]
      exact List.mem_cons_self
    · show s.acked ≠ 1
      rw [hwait.acked]
      decide

/-- With an empty buffer and an open window a flush numbers a segment. -/
theorem fillWindow_some {m : Nat} {out : List Bytes} (hok : SndOk k) (hb : k.sndBuf = [])
    (hq : k.sndQueue ≠ []) (hw : 0 < k.sendWindow.toNat) (hf : FlushSpec k .full (fun _ => t) m k' out) : 0 < m := by
  by_contra hm
  have hz : m = 0 := by omega
  subst hz
  have hlen : 0 < k.sndQueue.length := List.length_pos_of_ne_nil hq
  have hnxt : k.sndNxt = k.sndUna := by
    have h1 : k.sndNxt = k.sndUna + u32 (k.sndBuf.map Segment.core).length := hok.nxt
    rw [h1, hb]
    simp
  have hstop := hf.stop hlen
  have hrmt : k.rmtWnd.toNat ≤ 65535 := hok.rmt
  have hle := (sendWindow_toNat k).2.1
  have hopen : itimediff (k.sndUna + u32 0) (k.sndUna + k.sendWindow) < 0 :=
    (window_open (by omega) (by omega)).mpr hw
  rw [hnxt] at hstop
  exact absurd hopen (Int32.not_lt.mpr hstop)

theorem min_pos {a b : UInt32} (ha : 0 < a.toNat) (hb : 0 < b.toNat) : 0 < (min a b).toNat := by
  have he : min a b = if a ≤ b then a else b := rfl
  rw [he]
  split <;> assumption

/-- A queued segment is numbered and sent, at the latest after the first
flush has opened the congestion window. -/
theorem speaks_queue (ks : Side → KCP) (hr : Roomy (ks a)) (hok : SndOk (ks a)) (hb : (ks a).sndBuf = [])
    (hq : (ks a).sndQueue ≠ []) (hs : 0 < (ks a).sndWnd.toNat) (hz : (ks a).rmtWnd ≠ 0) (t₀ : Nat) :
    SpeaksFrom ks t₀ := by
  obtain ⟨k', out, nx, m, hf, hspec⟩ := flush_at hr (u32 t₀)
  by_cases hm : 0 < m
  · refine ⟨[(a, t₀)], by simp, ?_⟩
    simp only [List.map_cons, List.map_nil]
    exact speaks_once hf (fillWindow_speaks hok hspec hm)
  · -- nothing was numbered; now the congestion window is open
    have hm0 : m = 0 := by omega
    subst hm0
    have hok' : SndOk k' := hspec.keeps_snd hok
    have hbuf' : k'.sndBuf = [] := by
      have h1 : k'.sndBuf.map Segment.core = _ := congrArg Snd.buf hspec.snd
      have h2 : (ks a).snd.buf = [] := by simp [KCP.snd, hb]
      simpa [Snd.fillWindow, h2, numberFrom] using h1
    have hq' : k'.sndQueue ≠ [] := by
      have h1 : k'.sndQueue = (ks a).sndQueue.drop 0 := congrArg Snd.queue hspec.snd
      rw [h1]
      exact hq
    have hrmt : 0 < k'.rmtWnd.toNat := by
      have h1 : k'.rmtWnd = (ks a).rmtWnd := congrArg Snd.rmtWnd hspec.snd
      rw [h1, Nat.pos_iff_ne_zero]
      exact fun h0 => hz (UInt32.toNat_inj.mp h0)
    have hsnd : 0 < k'.sndWnd.toNat := by
      have h1 : k'.sndWnd = (ks a).sndWnd := congrArg Cfg.sndWnd hspec.cfg
      rw [h1]
      exact hs
    have hwin : 0 < k'.sendWindow.toNat := by
      unfold KCP.sendWindow
      split
      · rename_i hn
        have hn' : (ks a).nocwnd = 0 := (congrArg Cfg.nocwnd hspec.cfg).symm.trans hn
        have hc := UInt32.le_iff_toNat_le.mp (hspec.cwnd hn')
        exact min_pos (by rw [UInt32.toNat_one] at hc; omega) (min_pos hsnd hrmt)
      · exact min_pos hsnd hrmt
    obtain ⟨k'', out', nx', m', hf', hspec'⟩ := flush_at (hspec.roomy hr) (u32 t₀)
    refine ⟨[(a, t₀), (a, t₀)], by simp, ?_⟩
    simp only [List.map_cons, List.map_nil]
    exact speaks_twice hf hf' (fillWindow_speaks hok' hspec' (fillWindow_some hok' hbuf' hq' hwin hspec'))

/-! ## The link in order -/

theorem probeInv_kept {F O : Prop} (hF : F) (hO : O) : LinkKept F O (ProbeInv (P := Payload) kcpBounds) where
  tx _ hJ hs := hJ.tx hO hs
  rx hl hJ hs := hJ.rx hF hl hs

theorem probeInv_fresh {c : Setup} (hc : c.rcvWnd.toNat ≤ 65535) : ProbeInv kcpBounds freshTx (freshRx c) := by
  refine ⟨hc, ?_, ?_, ?_, ?_⟩
  · intro d hd
    cases hd
  · intro d hd
    cases hd
  · intro i hi
    cases hi
  · intro hi
    cases hi

/-- **No silent deadlock in order.** Windows from 1 to 65535, set before any
traffic; only `a` sends. In every run in which packets arrive fresh and `a`
hears in order, a state with nothing on the way, something to send and
everything read is never mute. -/
theorem no_silent_deadlock (conv : UInt32) (c : Side → Setup) (a : Side)
    (hw : ∀ s, (1 ≤ (c s).sndWnd.toNat ∧ (c s).sndWnd.toNat ≤ 65535) ∧
      (1 ≤ (c s).rcvWnd.toNat ∧ (c s).rcvWnd.toNat ≤ 65535))
    (y : Sys) (hr : (orderly conv c a).Reachable y) (hwait : Waits y a) : CanSpeak y := by
  obtain ⟨T, X, hrel, hprobe⟩ := link_reachable (a := a) (probeInv_kept (F := True) (O := a = a) trivial rfl)
    (probeInv_fresh (hw a.peer).2.2) y (orderly_mode hr)
  have hset : Settings (c a) (y.ends a).kcp :=
    settings_reachable a y (LTS.Reachable.mono (M := orderly conv c a) (N := oneWay conv c a) (fun _ hi => hi)
      (fun _ _ _ hs => hs.1) hr)
  have hend := hrel.ends a
  have hok := hend.tied.ok
  intro t₀
  by_cases hlive : ∃ s ∈ (y.ends a).kcp.sndBuf, s.acked ≠ 1
  · obtain ⟨s, hs, ha⟩ := hlive
    exact speaks_resend (fun s => (y.ends s).kcp) (a := a) hset.roomy hs ha t₀
  by_cases hz : (y.ends a).kcp.rmtWnd = 0
  · exact speaks_probe (fun s => (y.ends s).kcp) (a := a) hset.roomy hz t₀
  · -- an open window: the oldest segment held cannot be acknowledged
    have hbuf : (y.ends a).kcp.sndBuf = [] := by
      cases hb : (y.ends a).kcp.sndBuf with
      | nil => rfl
      | cons s q =>
        exfalso
        have hack : s.acked = 1 := by
          by_contra hne
          exact hlive ⟨s, by rw [hb]; exact List.mem_cons_self, hne⟩
        have hcell := hend.tied.snd.cells 0 s.core (by simp [KCP.snd, hb])
        have hin : (T a).una ∈ (T a).acked := hcell.acked.mp hack
        have hrmt : (y.ends a).kcp.rmtWnd.toNat = (T a).rmtWnd := hend.tied.snd.rmt
        rw [hprobe.closed hin] at hrmt
        exact hz (UInt32.toNat_inj.mp hrmt)
    have hq : (y.ends a).kcp.sndQueue ≠ [] := hwait.pending.resolve_right fun hne => hne hbuf
    have hsw : 0 < (y.ends a).kcp.sndWnd.toNat := by
      rw [hset.sndWnd]
      exact (hw a).1.1
    exact speaks_queue (fun s => (y.ends s).kcp) (a := a) hset.roomy hok hbuf hq hsw hz t₀

/-- Events of an orderly run. -/
def orderlyEv (a : Side) (y : Sys) (e : Ev) : Bool :=
  (oneWayEv a y e && freshEv y e) && match e with
    | .deliver s i _ pkt _ _ => decide (s ≠ a) || (decide (pkt = .regular) && (y.net s)[i]?.all fun p =>
      decide ((readHeader p.bytes).wnd ≠ 0 → (y.ends s).cnt.una ≤ (p.stamp s.peer).rcv))
    | _ => true

theorem orderly_step {c : Side → Setup} {y y' : Sys} {e : Ev}
    (hg : orderlyEv a y e = true) (hn : next y e = some y') : (orderly conv c a).step y e y' := by
  obtain ⟨h1, h2⟩ := Bool.and_eq_true_iff.mp hg
  obtain ⟨h3, h4⟩ := Bool.and_eq_true_iff.mp h1
  refine ⟨⟨hn, oneWay_of_ev h3⟩, freshStep_of_freshEv h4, ?_⟩
  cases e with
  | app s op => trivial
  | drop s i => trivial
  | deliver s i keep pkt nd clk =>
    rintro rfl
    simp only [ne_eq, not_true_eq_false, decide_false, Bool.false_or, Bool.and_eq_true, decide_eq_true_eq] at h2
    refine ⟨h2.1, fun p hp => ?_⟩
    have hall := h2.2
    rw [hp, Option.all_some, decide_eq_true_eq] at hall
    exact hall

/-- Number 0 is acknowledged, number 1 is lost. -/
def lossRun : List Ev :=
  [.app .A (.send [0]), .app .A (.send [1]), .app .A (.flush .full fun _ => 1), .app .A (.flush .full fun _ => 2),
    .deliver .B 0 false .regular false fun _ => 3, .app .B (.recv 10), .app .B (.flush .full fun _ => 4),
    .deliver .A 0 false .regular false fun _ => 5, .drop .B 0]

theorem no_silent_deadlock_loss : ∃ y, play (orderlyEv .A) (initial 7 narrow) lossRun = some y ∧
    (y.ends .A).kcp.sndBuf ≠ [] ∧ CanSpeak y := by
  obtain ⟨y, hy, hnet, hb, hr⟩ : ∃ y, play (orderlyEv .A) (initial 7 narrow) lossRun = some y ∧
      (y.net .A = [] ∧ y.net .B = []) ∧ (y.ends .A).kcp.sndBuf ≠ [] ∧ (y.ends .B).kcp.rcvQueue = [] :=
    ⟨_, rfl, ⟨rfl, rfl⟩, by decide +kernel, by decide +kernel⟩
  have hreach : (orderly 7 narrow .A).Reachable y :=
    ⟨_, lossRun, rfl, LTS.play_run (fun _ _ _ => orderly_step) hy⟩
  have hwait : Waits y .A := by
    refine ⟨fun s => ?_, .inr hb, hr⟩
    cases s
    · exact hnet.1
    · exact hnet.2
  exact ⟨y, hy, hb, no_silent_deadlock 7 narrow .A (fun s => by cases s <;> decide) y hreach hwait⟩

end KcpGo.L3
