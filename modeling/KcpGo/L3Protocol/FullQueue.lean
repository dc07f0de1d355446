import KcpGo.L3Protocol.Delivery
import KcpGo.L3Protocol.FlowControl
import KcpGo.L3Protocol.Sending

/-!
# A full receive queue

`Send` accepts messages of up to 255 fragments, `rcv_queue` takes 32 segments
by default. The window closes when the queue is full; only a read opens it,
and a read needs a complete message.

* `full_queue_readable`: when every message fits the receive window, a full
  queue starts with a complete one.
* `full_queue_stuck`: a message of 33 fragments fills the queue and is never
  complete.
-/
namespace KcpGo.L3

open KcpGo.L1 KcpGo.L2
open KcpGo.Link (Rx)

variable {conv : UInt32}

/-- No call of `WndSize`. -/
def KeepsDefault : Ev → Prop
  | .app _ op => ∀ snd rcv, op ≠ .wndSize snd rcv
  | _ => True

/-- Two endpoints in message mode with the default windows. -/
def defaultSystem (conv : UInt32) : LTS Sys Ev := (freshSystem conv fun _ => {}).restrict fun _ e _ => KeepsDefault e

/-- A message of `a` has no more fragments than the receive window. -/
def SendFits (a : Side) (y : Sys) : Ev → Prop
  | .app s (.send b) => s = a → b.length ≤ IKCP_WND_RCV.toNat * (y.ends a).kcp.mss.toNat
  | _ => True

/-- The runs in which every message of `a` fits. -/
def fittingSystem (conv : UInt32) (a : Side) : LTS Sys Ev := (defaultSystem conv).restrict fun y e _ => SendFits a y e

/-- The fragment numbers of a message in `Send`, whose bytes fit `w` segments. -/
theorem send_frg_lt {k e : KCP} {b : Bytes} {r : Int} {w : Nat} (h : k.send b = .ok (e, r)) (hs : k.stream = 0)
    (hw : b.length ≤ w * k.mss.toNat) :
    ∃ new : List Segment, e.sndQueue = k.sndQueue ++ new ∧ ∀ s ∈ new, s.frg.toNat < w := by
  unfold KCP.send at h
  split at h
  · cases h
    exact ⟨[], (List.append_nil _).symm, by simp⟩
  · rename_i hb
    rcases KCP.sendFresh_spec h with ⟨rfl, -⟩ | ⟨n, segs, hn, h255, hsegs, rfl, -⟩
    · exact ⟨[], (List.append_nil _).symm, by simp⟩
    · have hcount : n ≤ w := by
        by_contra hlt
        have := fragCount_tight hn (List.length_pos_iff.mpr hb)
        have := Nat.mul_le_mul_right k.mss.toNat (show w ≤ n - 1 by omega)
        omega
      refine ⟨segs, rfl, fun s hmem => ?_⟩
      rw [hs] at hsegs
      have hfrg : s.frg ∈ (List.range n).reverse.map UInt8.ofNat := fragments_frg hsegs ▸ List.mem_map_of_mem hmem
      obtain ⟨i, hi, he⟩ := List.mem_map.mp hfrg
      rw [List.mem_reverse, List.mem_range] at hi
      rw [← he, UInt8.toNat_ofNat']
      omega

/-! ## The runs in which every message fits -/

/-- Every fragment number of `a` is below the receive window. -/
structure Small (a : End) (sent : List Payload) : Prop where
  stream : a.kcp.stream = 0
  frg : ∀ p ∈ sent ++ a.kcp.sndQueue.map content, p.1.toNat < IKCP_WND_RCV.toNat

section
variable {conv : UInt32} {F O : Side → Prop} {y y' : Sys} {T : Side → KTx} {X : Side → Rx} {s : Side} {op : Op}
  {e k' : KCP} {o : Out} {t' : KTx} {x' : Rx}

theorem Small.acts (h : Small (y.ends s) (T s).sent) (hact : Acted conv F O y y' T X s op e k' o t' x')
    (hfit : ∀ b, op = .send b → b.length ≤ IKCP_WND_RCV.toNat * (y.ends s).kcp.mss.toNat) :
    Small (y'.ends s) t'.sent := by
  rw [hact.self]
  refine ⟨(step_stream hact.step hact.allowed).trans h.stream, ?_⟩
  show ∀ p ∈ t'.sent ++ k'.sndQueue.map content, p.1.toNat < IKCP_WND_RCV.toNat
  rw [hact.sim.queue]
  by_cases hsend : ∃ b, op = .send b
  · obtain ⟨b, rfl⟩ := hsend
    cases hact.body with
    | send hs =>
      obtain ⟨new, hq, hnew⟩ := send_frg_lt hs h.stream (hfit b rfl)
      rw [hq, List.map_append, ← List.append_assoc]
      intro p hp
      rcases List.mem_append.mp hp with hp | hp
      · exact h.frg p hp
      · obtain ⟨g, hg, rfl⟩ := List.mem_map.mp hp
        exact hnew g hg
    | idle hidle => cases hidle
  · rw [hact.body.queue fun b hb => hsend ⟨b, hb⟩]
    exact h.frg

theorem Small.peer {a : Side} (h : Small (y.ends a) (T a).sent)
    (hact : Acted conv F O y y' T X a.peer op e k' o t' x') :
    Small (y'.ends a) (T a).sent := by
  have hpeer := hact.peer
  rw [Side.peer_peer] at hpeer
  rwa [hpeer]

end

/-- With the default windows nothing resizes. -/
theorem fitting_mode {a : Side} {y : Sys} (h : (fittingSystem conv a).Reachable y) :
    ((modeSystem conv (fun _ => {}) (fun _ => True) (fun _ => False)).restrict
      fun y e _ => SendFits a y e).Reachable y := by
  refine LTS.Reachable.mono (M := fittingSystem conv a)
    (N := (modeSystem conv (fun _ => {}) (fun _ => True) (fun _ => False)).restrict fun y e _ => SendFits a y e)
    (fun _ hi => hi) (fun y e y' hs => ⟨⟨hs.1.1, ?_⟩, hs.2⟩) h
  have hkeep := hs.1.2
  cases e with
  | app s op =>
    intro _
    cases op with
    | wndSize snd rcv => exact absurd rfl (hkeep snd rcv)
    | _ => trivial
  | deliver s i keep pkt nd clk => exact fun hO => hO.elim
  | drop s i => trivial

theorem small_reachable {a : Side} {y : Sys} (hr : (fittingSystem conv a).Reachable y) :
    ∃ T X, SysRel conv (fun _ => True) y T X ∧ Small (y.ends a) (T a).sent := by
  refine linked_restrict (J := fun ends T _ => Small (ends a) (T a).sent) (F := fun _ => True) (O := fun _ => False)
    ⟨rfl, fun p hp => by cases hp⟩ ?_ y (fitting_mode hr)
  intro y y' T X l s op e k' o t' x' hfits hcalls _ hact h
  rcases Side.eq_or_peer a s with rfl | rfl
  · rw [Function.update_self]
    refine h.acts hact fun b hb => ?_
    subst hb
    cases hcalls
    exact hfits rfl
  · rw [Function.update_of_ne (Side.ne_peer a)]
    exact h.peer hact

/-- The receive window stays as it was. -/
theorem window_default {a : Side} {y : Sys} (hr : (fittingSystem conv a).Reachable y) :
    (y.ends a.peer).kcp.rcvWnd.toNat = IKCP_WND_RCV.toNat := by
  obtain ⟨T, X, hrel, hwin⟩ := link_reachable (a := a) (windowInv_kept (O := False) (by decide) trivial)
    (windowInv_fresh rfl (by decide)) y (fitting_mode hr).of_restrict
  exact ((hrel.ends a.peer).tied.rcv.wnd).trans hwin.wnd

/-- What is queued at the receiver is a beginning of messages that fit. -/
theorem queue_fits {a : Side} {y : Sys} (hr : (fittingSystem conv a).Reachable y) :
    ∃ ms fss, List.Forall₂ Framed ms fss ∧ (y.ends a.peer).kcp.rcvQueue.map content <+: fss.flatten ∧
      ∀ p ∈ fss.flatten, p.1.toNat < IKCP_WND_RCV.toNat := by
  obtain ⟨T, X, hrel, hsmall⟩ := small_reachable hr
  obtain ⟨-, -, -, hdel⟩ := delivered_reachable a hr.of_restrict.of_restrict
  obtain ⟨rest, fss, -, hframed, hsplit⟩ := hdel.framed rfl
  have hpre := (hrel.ends a.peer).prefix_read
  rw [Side.peer_peer, ← (hrel.ends a).sent] at hpre
  have hfrg := hsmall.frg
  rw [← (hrel.ends a).sent, ← List.map_append, hsplit] at hfrg
  refine ⟨rest, fss, hframed, ?_, fun p hp => hfrg p (List.mem_append_right _ hp)⟩
  rw [List.map_append] at hsplit
  have hcat := hpre.trans (List.prefix_append _ ((y.ends a).kcp.sndQueue.map content))
  rw [hsplit] at hcat
  exact (List.prefix_append_right_inj _).mp hcat

/-- A queue as long as its first message. -/
theorem peekSize_of_long {k : KCP} {ms : List Bytes} {fss : List (List Payload)} {w : Nat}
    (hf : List.Forall₂ Framed ms fss)
    (hq : k.rcvQueue.map content <+: fss.flatten) (hsmall : ∀ p ∈ fss.flatten, p.1.toNat < w) (hw : 0 < w)
    (hlen : w ≤ k.rcvQueue.length) : 0 ≤ k.peekSize := by
  cases hf with
  | nil =>
    rw [List.flatten_nil, List.prefix_nil, List.map_eq_nil_iff] at hq
    rw [hq, List.length_nil] at hlen
    omega
  | @cons m fs ms fss hm hrest =>
    obtain ⟨n, hn⟩ := hm
    obtain ⟨d, fs', rfl⟩ := hn.first
    have hlt := hn.lt
    have hnw : n < w := by
      have := hsmall (UInt8.ofNat n, d) (by simp)
      rw [UInt8.toNat_ofNat'] at this
      omega
    rw [List.flatten_cons] at hq
    obtain ⟨r, hr⟩ := List.prefix_of_prefix_length_le (List.prefix_append _ fss.flatten) hq
      (by rw [List.length_map, hn.length]; omega)
    exact peekSize_nonneg hn hr.symm

/-- **A full queue is readable when every message fits the window.** -/
theorem full_queue_readable (conv : UInt32) (a : Side) (y : Sys) (hr : (fittingSystem conv a).Reachable y)
    (hfull : (y.ends a.peer).kcp.rcvWnd.toNat ≤ (y.ends a.peer).kcp.rcvQueue.length) :
    0 ≤ (y.ends a.peer).kcp.peekSize := by
  obtain ⟨ms, fss, hf, hq, hsmall⟩ := queue_fits hr
  rw [window_default hr] at hfull
  exact peekSize_of_long hf hq hsmall (by decide) hfull

/-! ## Runs -/

def defaultEv (y : Sys) (e : Ev) : Bool :=
  freshEv y e && match e with
    | .app _ (.wndSize _ _) => false
    | _ => true

def fittingEv (a : Side) (y : Sys) (e : Ev) : Bool :=
  defaultEv y e && match e with
    | .app s (.send b) => decide (s = a → b.length ≤ IKCP_WND_RCV.toNat * (y.ends a).kcp.mss.toNat)
    | _ => true

theorem defaultSystem_step {y y' : Sys} {e : Ev} (hg : defaultEv y e = true) (hn : next y e = some y') :
    (defaultSystem conv).step y e y' := by
  obtain ⟨h1, h2⟩ := Bool.and_eq_true_iff.mp hg
  refine ⟨⟨hn, freshStep_of_freshEv h1⟩, ?_⟩
  cases e with
  | app s op =>
    rintro snd rcv rfl
    cases h2
  | _ => trivial

theorem fittingSystem_step {a : Side} {y y' : Sys} {e : Ev} (hg : fittingEv a y e = true)
    (hn : next y e = some y') : (fittingSystem conv a).step y e y' := by
  obtain ⟨h1, h2⟩ := Bool.and_eq_true_iff.mp hg
  refine ⟨defaultSystem_step h1 hn, ?_⟩
  cases e with
  | app s op =>
    cases op with
    | send b => exact fun hs => (of_decide_eq_true h2) hs
    | _ => trivial
  | _ => trivial

/-- A message of `n` fragments of one byte, in one packet. -/
def fragmentsRun (n : Nat) : List Ev :=
  [.app .A (.noDelay 0 10 0 1), .app .A (.setMtu 25), .app .A (.send (List.replicate n 1)), .app .A (.setMtu 1400),
    .app .A (.flush .full fun _ => 5), .deliver .B 0 false .regular false fun _ => 6]

theorem full_queue_readable_exact : ∃ y, (fittingSystem 7 .A).Reachable y ∧
    (y.ends .B).kcp.rcvWnd.toNat ≤ (y.ends .B).kcp.rcvQueue.length ∧ 0 ≤ (y.ends .B).kcp.peekSize := by
  obtain ⟨y, hy, hfull⟩ := (Option.any_eq_true _ _).mp
    (show ((play (fittingEv .A) (initial 7 fun _ => {}) (fragmentsRun 32)).any
    fun y => decide ((y.ends .B).kcp.rcvWnd.toNat ≤ (y.ends .B).kcp.rcvQueue.length)) = true by decide +kernel)
  have hr : (fittingSystem 7 .A).Reachable y := ⟨_, _, rfl, LTS.play_run (fun _ _ _ => fittingSystem_step) hy⟩
  have hfull' := of_decide_eq_true hfull
  exact ⟨y, hr, hfull', full_queue_readable 7 .A y hr hfull'⟩

/-- **A message of 33 fragments fills the queue and stays incomplete.** -/
theorem full_queue_stuck : ∃ y, (defaultSystem 7).Reachable y ∧ (y.ends .A).msgs = [List.replicate 33 1] ∧
    (y.ends .B).kcp.rcvWnd.toNat ≤ (y.ends .B).kcp.rcvQueue.length ∧ (y.ends .B).kcp.peekSize < 0 := by
  obtain ⟨y, hy, h⟩ := (Option.any_eq_true _ _).mp (show ((play defaultEv (initial 7 fun _ => {}) (fragmentsRun 33)).any
    fun y => decide ((y.ends .A).msgs = [List.replicate 33 1] ∧
      (y.ends .B).kcp.rcvWnd.toNat ≤ (y.ends .B).kcp.rcvQueue.length ∧ (y.ends .B).kcp.peekSize < 0)) = true by
    decide +kernel)
  exact ⟨y, ⟨_, _, rfl, LTS.play_run (fun _ _ _ => defaultSystem_step) hy⟩, of_decide_eq_true h⟩

end KcpGo.L3
