import KcpGo.L3Protocol.Refine

/-!
# Flow-control agreement

With a receive window that is fixed before traffic and not smaller than the
window a sender assumes at first (32), no genuine data arrives beyond it
(`never_beyond_window`). The link keeps `nxt ≤ una + window`
(`Link.WindowInv`), whatever old windows the sender has put together with
newer unas; una is never ahead of what the receiver expects.
-/
namespace KcpGo.L3

open KcpGo.L1 KcpGo.L2 KcpGo.Serial
open KcpGo.Link (Tx Rx WindowInv)

/-- `WindowInv` is a property of the link when its receiver keeps its window. -/
theorem windowInv_kept {w : Nat} (hw : w ≤ 65535) {F O : Prop} (hF : F) :
    LinkKept F O (WindowInv (P := Payload) w) where
  tx _ hJ hs := hJ.tx hs
  rx _ hJ hs := hJ.rx hw hF hs

theorem windowInv_fresh {c : Setup} {w : Nat} (hc : c.rcvWnd.toNat = w) (hw : 32 ≤ w) :
    WindowInv w freshTx (freshRx c) := by
  refine ⟨hc, hw, ?_, Nat.zero_le _⟩
  intro d hd
  cases hd

/-- The segment `h` passes the window test of `Input` in the state `k`. -/
def InWindow (k : KCP) (h : Header) : Prop := itimediff h.sn (k.rcvNxt + k.rcvWnd) < 0

/-- Inside the link's window is inside the control block's. -/
theorem Heard.inWindow {conv : UInt32} {F O : Prop} {t₂ t t' : KTx} {x₂ x x' : Rx} {st : Counters} {k : KCP}
    {wnd : UInt16} {w : Nat} (hw : w ≤ 65535) (h : Heard conv F O t₂ x₂ t x st k t' x') (hwin : WindowInv w t₂ x')
    {s : Segment} (hs : WireRel conv t₂ x₂ st wnd s) (hp : s.cmd = IKCP_CMD_PUSH) (hf : t₂.una ≤ st.una + 2 ^ 30) :
    InWindow k s.head := by
  obtain ⟨d, hd, hdu⟩ := hs.data hp
  obtain ⟨h1, h2, -⟩ := hd.near h.tied.bwd (by rw [hdu]; exact hf)
  have h3 := hwin.sent
  have h4 := h.tied.bwd.una_le
  have h5 := h.tied.bwd.rcv_le
  have hnxt : k.rcvNxt = u32 x'.rcv := h.tied.rcv.nxt
  have hwnd : k.rcvWnd = u32 w := by
    have : k.rcvWnd.toNat = w := (h.tied.rcv.wnd).trans hwin.wnd
    rw [← UInt32.toNat_inj, toNat_u32, this]
    omega
  have hdist : (itimediff s.head.sn (u32 (x'.rcv + w))).toInt = (d.idx : Int) - ((x'.rcv + w : Nat) : Int) := by
    rw [hd.sn]
    exact diff_ofNat (by omega) (by omega)
  unfold InWindow
  rw [hnxt, hwnd, u32_add, Int32.lt_iff_toInt_lt, hdist, Int32.toInt_zero]
  omega

/-- The fresh runs in which `b` leaves its receive window alone. -/
def fixedWindow (conv : UInt32) (c : Side → Setup) (b : Side) : LTS Sys Ev :=
  (freshSystem conv c).restrict fun _ e _ => ∀ op, e = .app b op → KeepsWnd op

theorem fixedWindow_mode {conv : UInt32} {c : Side → Setup} {b : Side} {y : Sys}
    (h : (fixedWindow conv c b).Reachable y) :
    (modeSystem conv c (fun s => s = b) (fun _ => False)).Reachable y := by
  refine LTS.Reachable.mono (M := fixedWindow conv c b) (N := modeSystem conv c (fun s => s = b) (fun _ => False))
    (fun _ hi => hi) (fun y e y' hs => ⟨hs.1, ?_⟩) h
  cases e with
  | app s op =>
    rintro rfl
    exact hs.2 op rfl
  | deliver s i keep pkt nd clk => exact fun hO => hO.elim
  | drop s i => trivial

/-- **Genuine data is never beyond the window.** The receive window of the
side `a.peer` is fixed before traffic at a value from 32 to 65535. Whenever a
packet of `a` arrives there, `Input` takes it as a run of whole segments, and
finds each PUSH segment among them below `rcv_nxt + rcv_wnd` when it comes to
it. -/
theorem never_beyond_window (conv : UInt32) (c : Side → Setup) (a : Side) (hlo : 32 ≤ (c a.peer).rcvWnd.toNat)
    (hhi : (c a.peer).rcvWnd.toNat ≤ 65535) (y : Sys) (hr : (fixedWindow conv c a.peer).Reachable y) (p : Pkt)
    (hp : p ∈ y.net a.peer) (hf : p.Fresh y) :
    ∃ ws, p.bytes = encodeAll ws ∧ ∀ pkt,
      KCP.inputLoop pkt p.bytes.length p.bytes ⟨(y.ends a.peer).kcp, 0, false, false⟩ =
          (KCP.inputSegs pkt ws ⟨(y.ends a.peer).kcp, 0, false, false⟩ >>= fun st => .ok (st, none)) ∧
        ∀ before w after st, ws = before ++ w :: after → w.cmd = IKCP_CMD_PUSH →
          KCP.inputSegs pkt before ⟨(y.ends a.peer).kcp, 0, false, false⟩ = .ok st →
          st.k.rcvWnd = (c a.peer).rcvWnd ∧ InWindow st.k w.head := by
  obtain ⟨T, X, hrel, hwin⟩ := link_reachable (a := a) (windowInv_kept (O := False) hhi rfl)
    (windowInv_fresh rfl hlo) y (fixedWindow_mode hr)
  have hb := hrel.ends a.peer
  have ha := hrel.ends a
  have hnet := (hrel.net a.peer p hp).carries
  rw [Side.peer_peer] at hb hnet
  obtain ⟨ws, hws, hwire⟩ := hnet
  have hfresh : (T a).una ≤ (p.stamp a).una + 2 ^ 30 ∧ (X a).rcv ≤ (p.stamp a).rcv + 2 ^ 30 := by
    have h1 := hf a
    rw [ha.cnt] at h1
    exact ⟨h1.1, h1.2.2⟩
  refine ⟨ws, hws, fun pkt => ⟨?_, ?_⟩⟩
  · rw [hws]
    refine KCP.inputLoop_encodeAll (fun w hw => ?_) (length_le_encodeAll ws)
    show KCP.Legal (y.ends a.peer).kcp.conv w
    rw [hb.tied.conv]
    exact (hwire w hw).legal
  intro before w after st hsplit hpush hsegs
  have hmem : ∀ v ∈ before, v ∈ ws := fun v hv => hsplit ▸ List.mem_append_left _ hv
  obtain ⟨t', x', hh⟩ := hb.tied.heard (F := True) (O := False) (fun v hv => hwire v (hmem v hv)) hsegs hfresh
    (fun hO => hO.elim) (fun _ => hb.settled rfl) hb.acks
  have hwin' : WindowInv (c a.peer).rcvWnd.toNat (T a) x' :=
    (windowInv_kept (O := False) hhi trivial).rxRun ha.tied.fwd hwin hh.rx
  refine ⟨?_, hh.inWindow hhi hwin' (hwire w ?_) hpush hfresh.1⟩
  · have h1 : st.k.rcvWnd.toNat = x'.wnd := hh.tied.rcv.wnd
    rw [← UInt32.toNat_inj, h1, hwin'.wnd]
  · rw [hsplit]
    simp

/-- Fresh events that leave the receive window of `b` alone. -/
def fixedEv (b : Side) (y : Sys) (e : Ev) : Bool :=
  freshEv y e && match e with
    | .app s (.wndSize _ rcvwnd) => decide (s ≠ b ∨ rcvwnd ≤ 0)
    | _ => true

theorem fixedWindow_step {conv : UInt32} {c : Side → Setup} {b : Side} {y y' : Sys} {e : Ev}
    (hg : fixedEv b y e = true) (hn : next y e = some y') : (fixedWindow conv c b).step y e y' := by
  obtain ⟨h1, h2⟩ := Bool.and_eq_true_iff.mp hg
  refine ⟨⟨hn, freshStep_of_freshEv h1⟩, ?_⟩
  rintro op rfl
  cases op with
  | wndSize snd rcv => simpa [KeepsWnd] using h2
  | _ => trivial

/-- The window of an acknowledgement is heard twice, the second time from a
copy, before the next segment goes out. -/
def staleRun : List Ev :=
  [.app .A (.noDelay 0 10 0 1), .app .A (.send [1]), .app .A (.flush .full fun _ => 5),
    .deliver .B 0 false .regular true fun _ => 6, .deliver .A 0 true .regular false fun _ => 7,
    .deliver .A 0 false .regular false fun _ => 8, .app .A (.send [2]), .app .A (.flush .full fun _ => 9)]

theorem never_beyond_window_stale : ∃ y p, play (fixedEv .B) (initial 7 fun _ => {}) staleRun = some y ∧
    y.net .B = [p] ∧ p.bytes.length = 25 ∧
    ∃ ws, p.bytes = encodeAll ws ∧ ∀ before w after st, ws = before ++ w :: after → w.cmd = IKCP_CMD_PUSH →
      KCP.inputSegs .regular before ⟨(y.ends .B).kcp, 0, false, false⟩ = .ok st → InWindow st.k w.head := by
  obtain ⟨y, p, hy, hp, hf, hl⟩ : ∃ y p, play (fixedEv .B) (initial 7 fun _ => {}) staleRun = some y ∧
      y.net .B = [p] ∧ p.Fresh y ∧ p.bytes.length = 25 :=
    ⟨_, _, rfl, rfl, by decide +kernel, by decide +kernel⟩
  have hr : (fixedWindow 7 (fun _ => {}) .B).Reachable y :=
    ⟨_, staleRun, rfl, LTS.play_run (fun _ _ _ => fixedWindow_step) hy⟩
  obtain ⟨ws, hws, h⟩ := never_beyond_window 7 (fun _ => {}) .A (by decide) (by decide) y hr p
    (by rw [show Side.A.peer = Side.B from rfl, hp]; exact List.mem_singleton_self p) hf
  exact ⟨y, p, hy, hp, hl, ws, hws, fun before w after st h1 h2 h3 => ((h .regular).2 before w after st h1 h2 h3).2⟩

end KcpGo.L3
