import KcpGo.L2Machine.BuffersSpec

/-!
# `Input` keeps its buffers
-/
namespace KcpGo.L2.Buffers

open KcpGo.L1 KcpGo.Ledger GoM

/-! ## `Input` -/

section
variable {vars : Held} {w : World} {E : Panic → World → Prop}
variable {src : Option Nat}

/-- Recycling a segment of `snd_buf` in its place; `s₀` is the segment after
other changes. -/
theorem wp_recycleAt {done q : List Cell} {seg : Cell} (s₀ : Cell) (h : Good vars w) (hw : w.sndBuf = done ++ seg :: q)
    (hd : s₀.1.data = seg.1.data) (hb : s₀.2 = seg.2) {Q : Cell → World → Prop}
    (hQ : ∀ bk, Good vars { w with sndBuf := done ++ ({ s₀.1 with data := none }, s₀.2) :: q, books := bk } →
      Q ({ s₀.1 with data := none }, s₀.2) (w.keep bk)) : wp (recycleSegment vars s₀) E Q w := by
  unfold recycleSegment
  split
  · rename_i hsome
    rw [hd] at hsome
    refine (wp_bind _ _).2 <| wp_putSeg h fun bk hput => (wp_pure _).2 <| hQ bk ?_
    refine hput _ _ rfl rfl fun c => ?_
    simp [World.segs, hw, hsome, hb]
    omega
  · rename_i hnone
    have hnil : s₀.1.data = none := by simpa using hnone
    have hsame : ({ s₀.1 with data := none }, s₀.2) = s₀ := by
      rw [← hnil]
    rw [hsame] at hQ
    refine hQ w.books (h.move rfl rfl fun c => ?_)
    simp [World.segs, hw, ← hd, hnil]

theorem unaLoop_spec {una : UInt32} : ∀ (todo done : List Cell) {w : World}, Good vars w → w.sndBuf = done ++ todo →
    (∀ b, bufs done b = 0) →
    wp (unaLoop vars una done todo) E (fun n w' => Good vars w' ∧
      n = done.length + KCP.unaCount una (todo.map Prod.fst) ∧
      ∃ bk done', w' = { w with sndBuf := done' ++ todo.drop (KCP.unaCount una (todo.map Prod.fst)), books := bk } ∧
        done'.length = n ∧ ∀ b, bufs done' b = 0) w := by
  intro todo
  induction todo with
  | nil =>
    intro done w h hw hdone
    exact ⟨h, rfl, w.books, done, by simp [KCP.unaCount, ← hw], rfl, hdone⟩
  | cons seg q ih =>
    intro done w h hw hdone
    rw [unaLoop, List.map_cons, KCP.unaCount]
    by_cases hu : 0 < itimediff una seg.1.sn
    · rw [if_pos hu, if_pos hu]
      refine (wp_bind _ _).2 <| wp_recycleAt seg h hw rfl rfl fun bk hg => (wp_bind _ _).2 <| (wp_modify _).2 ?_
      refine wp_mono (ih (done ++ [({ seg.1 with data := none }, seg.2)]) hg (by simp) fun b => ?_) (fun _ _ he => he)
        fun n w' hn => ?_
      · simp [hdone b]
      · obtain ⟨hg', hcount, bk', done', rfl, hlen, hnil⟩ := hn
        refine ⟨hg', ?_, bk', done', rfl, hlen, hnil⟩
        rw [hcount, List.length_append, List.length_singleton]
        omega
    · rw [if_neg hu, if_neg hu]
      exact ⟨h, rfl, w.books, done, by simp [← hw], rfl, hdone⟩

theorem parseUna_refines (una : UInt32) (h : Good vars w) :
    Refines (fun _ => vars) (parseUna vars una) (.ok (w.kcp.parseUna una)) w := by
  unfold Refines parseUna
  refine (wp_bind _ _).2 <| wp_get.2 <| (wp_bind _ _).2 <| wp_mono (unaLoop_spec w.sndBuf [] h rfl fun _ => rfl)
    (fun _ _ he => he) fun n w' hn => ?_
  obtain ⟨hg, hcount, bk, done', rfl, hlen, hnil⟩ := hn
  have hdrop : ∀ l : List Cell, (done' ++ l).drop n = l := fun l => by rw [← hlen, List.drop_left]
  refine (wp_bind _ _).2 <| (wp_modify _).2 <| (wp_pure _).2 ⟨hg.move rfl rfl fun b => ?_, rfl, ?_⟩
  · simp [World.segs, hdrop, hnil b]
  · rw [List.length_nil, Nat.zero_add] at hcount
    refine congrArg Except.ok (Prod.ext ?_ hcount.symm)
    simp only [hdrop]
    simp only [KCP.parseUna, World.kcp, List.map_drop]

theorem ackLoop_spec {sn : UInt32} : ∀ (todo done : List Cell) {w : World}, Good vars w → w.sndBuf = done ++ todo →
    wp (ackLoop vars sn done todo) E (fun _ w' => Good vars w' ∧ ∃ bk buf, w' = { w with sndBuf := buf, books := bk } ∧
      buf.map Prod.fst = done.map Prod.fst ++ KCP.markAcked sn (todo.map Prod.fst)) w := by
  intro todo
  induction todo with
  | nil =>
    intro done w h hw
    exact ⟨h, w.books, w.sndBuf, rfl, by simp [hw, KCP.markAcked]⟩
  | cons seg q ih =>
    intro done w h hw
    rw [ackLoop, List.map_cons, KCP.markAcked]
    by_cases hsn : sn = seg.1.sn
    · rw [if_pos hsn, if_pos hsn]
      refine (wp_bind _ _).2 <| wp_recycleAt ({ seg.1 with acked := 1 }, seg.2) h hw rfl rfl fun bk hg =>
        (wp_modify _).2 ?_
      exact ⟨hg, bk, _, rfl, by simp⟩
    rw [if_neg hsn, if_neg hsn]
    by_cases hlt : itimediff sn seg.1.sn < 0
    · rw [if_pos hlt, if_pos hlt]
      exact ⟨h, w.books, w.sndBuf, rfl, by simp [hw]⟩
    rw [if_neg hlt, if_neg hlt]
    refine wp_mono (ih (done ++ [seg]) h (by simp [hw])) (fun _ _ he => he) fun _ w' hd => ?_
    obtain ⟨hg, bk, buf, hw', hbuf⟩ := hd
    exact ⟨hg, bk, buf, hw', by simp [hbuf]⟩

theorem parseAck_refines (sn : UInt32) (h : Good vars w) :
    Refines (fun _ => vars) (parseAck vars sn) (.ok (w.kcp.parseAck sn, ())) w := by
  unfold Refines parseAck KCP.parseAck
  refine (wp_bind _ _).2 <| wp_get.2 ?_
  by_cases hout : itimediff sn w.ctl.sndUna < 0 ∨ 0 ≤ itimediff sn w.ctl.sndNxt
  · have hout' : itimediff sn w.kcp.sndUna < 0 ∨ 0 ≤ itimediff sn w.kcp.sndNxt := hout
    rw [if_pos hout, if_pos hout']
    exact Refines.pure h
  · have hout' : ¬ (itimediff sn w.kcp.sndUna < 0 ∨ 0 ≤ itimediff sn w.kcp.sndNxt) := hout
    rw [if_neg hout, if_neg hout']
    refine wp_mono (ackLoop_spec w.sndBuf [] h rfl) (fun _ _ he => he) fun _ w' hd => ?_
    obtain ⟨hg, bk, buf, rfl, hbuf⟩ := hd
    refine ⟨hg, rfl, ?_⟩
    rw [List.map_nil, List.nil_append] at hbuf
    simp only [World.kcp, hbuf]

/-- The segments of `snd_buf` change, none gets or loses its data. -/
theorem rezip_world {segs : List Segment}
    (hdata : (segs.map fun s => s.data.isSome) = w.sndBuf.map fun c => c.1.data.isSome)
    (h : Good vars w) : Good vars { w with sndBuf := rezip segs w.sndBuf } ∧
      ({ w with sndBuf := rezip segs w.sndBuf } : World).kcp = { w.kcp with sndBuf := segs } := by
  have hlen : segs.length = w.sndBuf.length := by simpa using congrArg List.length hdata
  refine ⟨h.move rfl rfl fun b => ?_, ?_⟩
  · simp only [World.segs, bufs_rezip b hdata]
  · calc _ = { w.kcp with sndBuf := (rezip segs w.sndBuf).map Prod.fst } := rfl
      _ = { w.kcp with sndBuf := segs } := by rw [rezip_fst hlen]

theorem parseFastack_refines (sn ts : UInt32) (h : Good vars w) :
    Refines (fun _ => vars) (parseFastack sn ts) (.ok (w.kcp.parseFastack sn ts)) w := by
  have hcore : (w.kcp.parseFastack sn ts).1.sndBuf.map Segment.core = w.kcp.sndBuf.map Segment.core := by
    unfold KCP.parseFastack
    split
    · rfl
    · exact KCP.bumpFastack_core _ _ _ _
  have hrest : { w.kcp with sndBuf := (w.kcp.parseFastack sn ts).1.sndBuf } = (w.kcp.parseFastack sn ts).1 := by
    unfold KCP.parseFastack
    split <;> rfl
  have hdata : ((w.kcp.parseFastack sn ts).1.sndBuf.map fun s => s.data.isSome) =
      w.sndBuf.map fun c => c.1.data.isSome := by
    have := congrArg (List.map fun s : Segment => s.data.isSome) hcore
    simpa [World.kcp, Function.comp_def] using this
  obtain ⟨hg, hk⟩ := rezip_world hdata h
  unfold Refines parseFastack
  refine (wp_bind _ _).2 <| wp_get.2 <| (wp_bind _ _).2 <| (wp_set _).2 <| (wp_pure _).2 ⟨hg, rfl, ?_⟩
  rw [hk, hrest]

theorem wp_useSrc (h : Good vars w) (hsrc : ∀ b, src = some b → 0 < holders vars b) {Q : Unit → World → Prop}
    (hQ : ∀ bk, Good vars (w.keep bk) → Q () (w.keep bk)) : wp (useSrc vars src) E Q w := by
  cases src with
  | none => exact hQ w.books h
  | some b => exact wp_useSegBuf h (Nat.add_pos_right _ (hsrc b rfl)) hQ

theorem parseData_refines (hsrc : ∀ b, src = some b → 0 < holders vars b) {newseg : Segment}
    (hd : newseg.data.isSome = true) (h : Good vars w) :
    Refines (fun _ => vars) (parseData vars src newseg) (w.kcp.parseData newseg) w := by
  unfold Refines parseData KCP.parseData
  refine (wp_bind _ _).2 <| wp_get.2 ?_
  by_cases hout : 0 ≤ itimediff newseg.sn (w.ctl.rcvNxt + w.ctl.rcvWnd) ∨ itimediff newseg.sn w.ctl.rcvNxt < 0
  · have hout' : 0 ≤ itimediff newseg.sn (w.kcp.rcvNxt + w.kcp.rcvWnd) ∨ itimediff newseg.sn w.kcp.rcvNxt < 0 := hout
    rw [if_pos hout, if_pos hout']
    exact Refines.pure h
  have hout' : ¬ (0 ≤ itimediff newseg.sn (w.kcp.rcvNxt + w.kcp.rcvWnd) ∨ itimediff newseg.sn w.kcp.rcvNxt < 0) := hout
  rw [if_neg hout, if_neg hout']
  have hfec : ∀ w : World, (moveAll w).fec = w.fec := fun w => (moveReady_books _ w).2.1
  by_cases hhas : w.ctl.rcvBuf.has newseg.sn = true
  · have hhas' : w.kcp.rcvBuf.has newseg.sn = true := hhas
    rw [if_pos hhas, if_pos hhas', moveAll_kcp]
    exact ⟨h.moveAll, hfec w, rfl⟩
  have hhas' : ¬ w.kcp.rcvBuf.has newseg.sn = true := hhas
  rw [if_neg hhas, if_neg hhas']
  refine (wp_bind _ _).2 <| wp_getSlice h .segment (fun hs b bk hg => ?_) fun hs bk hc => ?_
  · rw [if_neg hs]
    have hsrc' : ∀ c, src = some c → 0 < holders ((Place.segment, b) :: vars) c := by
      intro c hc
      have := hsrc c hc
      rw [holders_cons]
      omega
    refine (wp_bind _ _).2 <| wp_useSrc hg hsrc' fun bk' hg' => ?_
    refine (wp_bind _ _).2 <| wp_useSegBuf hg' (var_held _ _ _ _) fun bk'' hu => ?_
    refine (wp_bind _ _).2 <| (wp_modify _).2 <| (wp_bind _ _).2 <| (wp_modify _).2 <| (wp_pure _).2
      ⟨Good.moveAll ?_, hfec _, ?_⟩
    · refine hu.move rfl rfl fun c => ?_
      have := bufs_perm (BinHeap.push_perm cellLess w.rcvBuf (newseg, b)) c
      simp [World.segs, this, hd]
      omega
    · rw [← moveAll_kcp]
      simp only [World.kcp, SegHeap.push, ← push_fst]
      rfl
  · rw [if_pos hs]
    exact ⟨hc, rfl⟩

theorem inputHead_refines (pkt : PacketType) (hdr : Header) (h : Good vars w) :
    Refines (fun _ => vars) (inputHead vars pkt hdr) (.ok (w.kcp.inputHead pkt hdr)) w := by
  unfold Refines inputHead KCP.inputHead
  refine (wp_bind _ _).2 <| (wp_modify _).2 ?_
  have hstep : ∀ w₁ : World, Good vars w₁ →
      Refines (fun _ => vars) (do
        let n ← parseUna vars hdr.una
        modify fun w => { w with ctl := { w.ctl with sndUna := KCP.firstSn w.ctl.sndNxt (w.sndBuf.map Prod.fst) } }
        pure n) (.ok ((w₁.kcp.parseUna hdr.una).1.shrinkBuf, (w₁.kcp.parseUna hdr.una).2)) w₁ := by
    intro w₁ h₁
    refine (wp_bind _ _).2 <| wp_mono (parseUna_refines hdr.una h₁) (fun e w' he => nomatch he.2) fun n w' hn => ?_
    obtain ⟨hg, hf, hk⟩ := hn
    rw [Except.ok.injEq] at hk
    rw [hk]
    exact ⟨hg, hf, rfl⟩
  by_cases hr : pkt = .regular
  · simp only [hr, if_true]
    exact (hstep { w with ctl := { w.ctl with rmtWnd := hdr.wnd.toUInt32 } } h).rest rfl rfl
  · simp only [hr, if_false]
    exact (hstep w h).rest rfl rfl

theorem inputPush_refines (hsrc : ∀ b, src = some b → 0 < holders vars b) (hdr : Header) (payload : Bytes)
    (h : Good vars w) :
    Refines (fun _ => vars) (inputPush vars src hdr payload) ((w.kcp.inputPush hdr payload).map (·, ())) w := by
  unfold Refines inputPush KCP.inputPush
  refine (wp_bind _ _).2 <| wp_get.2 ?_
  by_cases hin : itimediff hdr.sn (w.ctl.rcvNxt + w.ctl.rcvWnd) < 0
  · have hin' : itimediff hdr.sn (w.kcp.rcvNxt + w.kcp.rcvWnd) < 0 := hin
    rw [if_pos hin, if_pos hin']
    refine (wp_bind _ _).2 <| (wp_modify _).2 ?_
    by_cases hnew : 0 ≤ itimediff hdr.sn w.ctl.rcvNxt
    · have hnew' : 0 ≤ itimediff hdr.sn w.kcp.rcvNxt := hnew
      rw [if_pos hnew, if_pos hnew']
      have hack : Good vars { w with ctl := w.ctl.ackPush hdr.sn hdr.ts } := h
      have hp := parseData_refines hsrc (rfl : (KCP.pushed hdr payload).data.isSome = true) hack
      refine (wp_bind _ _).2 <| wp_mono hp (fun e w' he => ?_) fun a w' ha => ?_
      · refine ⟨he.1, ?_⟩
        have : (w.kcp.ackPush hdr.sn hdr.ts).parseData (KCP.pushed hdr payload) = .error e := he.2
        rw [this]
        rfl
      · refine ⟨ha.1, ha.2.1, ?_⟩
        have : (w.kcp.ackPush hdr.sn hdr.ts).parseData (KCP.pushed hdr payload) = .ok (w'.kcp, a) := ha.2.2
        rw [this]
        rfl
    · have hnew' : ¬ 0 ≤ itimediff hdr.sn w.kcp.rcvNxt := hnew
      rw [if_neg hnew, if_neg hnew']
      exact ⟨h, rfl, rfl⟩
  · have hin' : ¬ itimediff hdr.sn (w.kcp.rcvNxt + w.kcp.rcvWnd) < 0 := hin
    rw [if_neg hin, if_neg hin']
    exact ⟨h, rfl, rfl⟩

theorem map_error {α β : Type} {f : α → β} {g : Go α} {e : Panic} (h : g.map f = .error e) : g = .error e := by
  cases g with
  | ok a => cases h
  | error e' =>
    cases h
    rfl

theorem map_ok {α β : Type} {f : α → β} {g : Go α} {b : β} (h : g.map f = .ok b) : ∃ a, g = .ok a ∧ f a = b := by
  cases g with
  | ok a => exact ⟨a, rfl, Except.ok.inj h⟩
  | error e => cases h

/-- The variables of the loop with the control block, as `KCP.inputLoop` has
them. -/
def LoopVars.on (st : LoopVars) (k : KCP) : InLoop := ⟨k, st.latest, st.updateRTT, st.flushSegments⟩

def unpack (s : InLoop) : KCP × LoopVars := (s.k, ⟨s.latest, s.updateRTT, s.flushSegments⟩)

theorem unpack_eq {s : InLoop} {k : KCP} {st : LoopVars} (h : unpack s = (k, st)) : s = st.on k := by
  cases h
  rfl

theorem inputSeg_refines (hsrc : ∀ b, src = some b → 0 < holders vars b) (pkt : PacketType) (hdr : Header)
    (payload : Bytes) (st : LoopVars) (h : Good vars w) :
    Refines (fun _ => vars) (inputSeg vars src pkt hdr payload st)
      ((KCP.inputSeg pkt hdr payload (st.on w.kcp)).map unpack) w := by
  unfold Refines inputSeg KCP.inputSeg
  refine (wp_bind _ _).2 <| wp_mono (inputHead_refines pkt hdr h) (fun e w' he => nomatch he.2) fun n w₁ hn => ?_
  obtain ⟨hg, hf, hk⟩ := hn
  rw [Except.ok.injEq] at hk
  have hk' : (st.on w.kcp).k.inputHead pkt hdr = (w₁.kcp, n) := hk
  rw [hk']
  dsimp only
  by_cases hack : hdr.cmd = IKCP_CMD_ACK
  · rw [if_pos hack, if_pos hack]
    refine (wp_bind _ _).2 <| wp_mono (parseAck_refines hdr.sn hg) (fun e w' he => nomatch he.2) fun _ w₂ h₂ => ?_
    obtain ⟨hg₂, hf₂, hk₂⟩ := h₂
    refine (wp_bind _ _).2 <| wp_mono (parseFastack_refines hdr.sn hdr.ts hg₂)
      (fun e w' he => nomatch he.2) fun r w₃ h₃ => ?_
    obtain ⟨hg₃, hf₃, hk₃⟩ := h₃
    have hk₂' : w₁.kcp.parseAck hdr.sn = w₂.kcp := congrArg Prod.fst (Except.ok.inj hk₂)
    rw [hk₂', Except.ok.inj hk₃]
    exact ⟨hg₃, hf₃.trans (hf₂.trans hf), rfl⟩
  rw [if_neg hack, if_neg hack]
  by_cases hpush : hdr.cmd = IKCP_CMD_PUSH
  · rw [if_pos hpush, if_pos hpush]
    refine (wp_bind _ _).2 <| wp_mono (inputPush_refines hsrc hdr payload hg) (fun e w' he => ?_) fun _ w₂ h₂ => ?_
    · rw [map_error he.2]
      exact ⟨he.1, rfl⟩
    · obtain ⟨hg₂, hf₂, hk₂⟩ := h₂
      obtain ⟨k, hk, hku⟩ := map_ok hk₂
      obtain rfl : k = w₂.kcp := congrArg Prod.fst hku
      rw [hk]
      exact ⟨hg₂, hf₂.trans hf, rfl⟩
  rw [if_neg hpush, if_neg hpush]
  by_cases hask : hdr.cmd = IKCP_CMD_WASK
  · rw [if_pos hask, if_pos hask]
    exact ⟨hg, hf, rfl⟩
  · rw [if_neg hask, if_neg hask]
    exact ⟨hg, hf, rfl⟩

theorem inputLoop_refines (hsrc : ∀ b, src = some b → 0 < holders vars b) (pkt : PacketType) :
    ∀ (n : Nat) (data : Bytes) (st : LoopVars) {w : World}, Good vars w →
      Refines (fun _ => vars) (inputLoop vars src pkt n data st)
        ((KCP.inputLoop pkt n data (st.on w.kcp)).map fun r => ((unpack r.1).1, (unpack r.1).2, r.2)) w := by
  intro n
  induction n with
  | zero => exact fun data st w h => ⟨h, rfl, rfl⟩
  | succ n ih =>
    intro data st w h
    unfold Refines
    rw [inputLoop, KCP.inputLoop]
    by_cases hshort : data.length < IKCP_OVERHEAD
    · rw [if_pos hshort, if_pos hshort]
      exact ⟨h, rfl, rfl⟩
    rw [if_neg hshort, if_neg hshort]
    refine (wp_bind _ _).2 <| wp_useSrc h hsrc fun bk hg => (wp_bind _ _).2 <| wp_get.2 ?_
    dsimp only
    by_cases hconv : (readHeader data).conv ≠ (w.keep bk).ctl.conv
    · have hconv' : (readHeader data).conv ≠ (st.on w.kcp).k.conv := hconv
      rw [if_pos hconv, if_pos hconv']
      exact ⟨hg, rfl, rfl⟩
    have hconv' : ¬ (readHeader data).conv ≠ (st.on w.kcp).k.conv := hconv
    rw [if_neg hconv, if_neg hconv']
    by_cases hlen : (data.drop IKCP_OVERHEAD).length < (readHeader data).length.toNat
    · rw [if_pos hlen, if_pos hlen]
      exact ⟨hg, rfl, rfl⟩
    rw [if_neg hlen, if_neg hlen]
    by_cases hcmd : KCP.isCmd (readHeader data).cmd = false
    · rw [if_pos hcmd, if_pos hcmd]
      exact ⟨hg, rfl, rfl⟩
    rw [if_neg hcmd, if_neg hcmd]
    refine (wp_bind _ _).2 <| wp_mono (inputSeg_refines hsrc pkt _ _ st hg) (fun e w' he => ?_) fun st' w' hs => ?_
    · obtain ⟨hc, he⟩ := he
      rw [World.keep_kcp] at he
      rw [map_error he]
      exact ⟨hc, rfl⟩
    · obtain ⟨hg', hf, hk⟩ := hs
      rw [World.keep_kcp] at hk
      obtain ⟨s', hs', hu⟩ := map_ok hk
      rw [hs', unpack_eq hu]
      exact (ih _ st' hg').rest hf rfl

/-- After the loop only the estimate and the window change. -/
theorem sampleRtt_fits (pkt : PacketType) (vs : LoopVars) (clk : Clock) :
    Fits w (KCP.sampleRtt pkt (vs.on w.kcp) clk).1 := by
  unfold KCP.sampleRtt KCP.updateAck KCP.smoothRtt
  dsimp only
  repeat' split
  all_goals exact ⟨rfl, rfl, rfl, rfl⟩

theorem Fits.growCwnd {k k' : KCP} {una : UInt32} (h : Fits w k) (hk : k.growCwnd una = .ok k') : Fits w k' := by
  obtain ⟨c, i, rfl⟩ := KCP.growCwnd_spec hk
  exact ⟨h.sndQueue, h.sndBuf, h.rcvBuf, h.rcvQueue⟩

theorem inputFlush_refines (want : Option FlushType) (clk : Clock) (h : Good vars w) :
    Refines (fun _ => vars)
      (match want with
        | none => pure ((0 : Int), [])
        | some ft => do
          let r ← flush vars ft clk
          pure (0, r.1))
      (match want with
        | none => .ok (w.kcp, (0 : Int), [])
        | some ft => do
          let (k, out, _) ← w.kcp.flush ft clk
          .ok (k, 0, out)) w := by
  cases want with
  | none => exact ⟨h, rfl, rfl⟩
  | some ft => exact Refines.bind (flush_refines ft clk h) rfl fun r w' hg _ _ => Refines.pure hg

theorem input_refines (hsrc : ∀ b, src = some b → 0 < holders vars b) (data : Bytes) (pkt : PacketType)
    (ackNoDelay : Bool) (clk : Clock) (h : Good vars w) :
    Refines (fun _ => vars) (input vars src data pkt ackNoDelay clk) (w.kcp.input data pkt ackNoDelay clk) w := by
  unfold Refines input KCP.input KCP.inputBody
  refine (wp_bind _ _).2 <| wp_get.2 ?_
  dsimp only
  by_cases hshort : data.length < IKCP_OVERHEAD
  · rw [if_pos hshort, if_pos hshort]
    exact ⟨h, rfl, rfl⟩
  rw [if_neg hshort, if_neg hshort]
  have hloop := inputLoop_refines hsrc pkt data.length data ⟨0, false, false⟩ h
  refine (wp_bind _ _).2 <| wp_mono hloop (fun e w' he => ?_) fun y w₁ hy => ?_
  · have he' : KCP.inputLoop pkt data.length data ⟨w.kcp, 0, false, false⟩ = .error e := map_error he.2
    rw [he']
    exact ⟨he.1, rfl⟩
  obtain ⟨hg, hf, hk⟩ := hy
  obtain ⟨⟨st, ret⟩, hst, hu⟩ := map_ok hk
  obtain ⟨vs, ret'⟩ := y
  have hst' : KCP.inputLoop pkt data.length data ⟨w.kcp, 0, false, false⟩ = .ok (vs.on w₁.kcp, ret') := by
    obtain ⟨hk₁, hr⟩ := Prod.mk.inj hu
    obtain ⟨hv, hr⟩ := Prod.mk.inj hr
    have hs : st = vs.on w₁.kcp := unpack_eq (Prod.ext hk₁ hv)
    subst hr
    rw [← hs]
    exact hst
  rw [hst', Go.ok_bind]
  cases ret' with
  | some r => exact ⟨hg, hf, rfl⟩
  | none =>
    refine (wp_bind _ _).2 <| wp_get.2 ?_
    dsimp only
    have hs := sampleRtt_fits (w := w₁) pkt vs clk
    refine (wp_bind _ _).2 <| (wp_call _).2 ⟨fun k hk => ?_, fun e he => ?_⟩
    · have hk' : (KCP.sampleRtt pkt (vs.on w₁.kcp) clk).1.growCwnd w.kcp.sndUna = .ok k := hk
      have hkcp := (hs.growCwnd hk').kcp
      rw [hk', Go.ok_bind]
      refine (wp_bind _ _).2 <| (wp_set _).2 ?_
      have hg₁ : Good vars { w₁ with ctl := k } := hg
      refine (inputFlush_refines _ _ hg₁).rest hf ?_
      rw [hkcp]
      rfl
    · have he' : (KCP.sampleRtt pkt (vs.on w₁.kcp) clk).1.growCwnd w.kcp.sndUna = .error e := he
      rw [he']
      exact ⟨hg.clean, rfl⟩

/-! ## The calls -/

theorem wp_onFields {f : KCP → KCP} (h : Good vars w) (hf : Fits w (f w.kcp))
    {Q : Unit → World → Prop}
    (hQ : ∀ w', Good vars w' → w'.fec = w.fec → w'.kcp = f w.kcp → Q () w') : wp (onFields f) E Q w :=
  hQ { w with ctl := f w.kcp } h rfl hf.kcp

theorem noDelay_fits (a b c d : Int) : Fits w (w.kcp.noDelay a b c d) := by
  unfold KCP.noDelay
  dsimp only
  repeat' split
  all_goals exact ⟨rfl, rfl, rfl, rfl⟩

theorem wndSize_fits (a b : Int) : Fits w (w.kcp.wndSize a b) := by
  unfold KCP.wndSize
  dsimp only
  repeat' split
  all_goals exact ⟨rfl, rfl, rfl, rfl⟩

theorem setMtu_fits {mtu : Int} {r : KCP × Int} (h : w.kcp.setMtu mtu = .ok r) : Fits w r.1 := by
  unfold KCP.setMtu at h
  dsimp only at h
  repeat' split at h
  all_goals cases h
  all_goals exact ⟨rfl, rfl, rfl, rfl⟩

theorem updateTimer_fits (now : UInt32) : Fits w (w.kcp.updateTimer now).1 := by
  unfold KCP.updateTimer KCP.expire KCP.resync KCP.startTimer
  repeat' split
  all_goals exact ⟨rfl, rfl, rfl, rfl⟩

theorem update_refines (clk : Clock) (h : Good [] w) : Refines (fun _ => []) (update clk) (w.kcp.update clk) w := by
  unfold Refines update KCP.update
  refine (wp_bind _ _).2 <| wp_get.2 <| (wp_bind _ _).2 <| wp_onFields h (updateTimer_fits _) fun w' hg hf hk => ?_
  by_cases hexp : (w.kcp.updateTimer (clk 0)).2 = true
  · have hr : Refines (fun _ => []) (do
          let r ← flush [] .full clk.tail
          pure r.1)
        (do
          let (k, out, _) ← w'.kcp.flush .full clk.tail
          .ok (k, out)) w' := Refines.bind (flush_refines .full clk.tail hg) rfl fun r w' hg _ _ => Refines.pure hg
    rw [if_pos hexp, if_pos hexp, ← hk]
    exact hr.rest hf rfl
  · rw [if_neg hexp, if_neg hexp, ← hk]
    exact ⟨hg, hf, rfl⟩

theorem step_refines (op : Op) (h : Good [] w) : Refines (fun _ => []) (step op) (L2.step w.kcp op) w := by
  cases op with
  | send buffer => exact Refines.bind (send_refines buffer h) rfl fun r w' hg _ _ => Refines.pure hg
  | recv room => exact Refines.bind (recv_refines room h) rfl fun r w' hg _ _ => Refines.pure hg
  | peekSize => exact ⟨h, rfl, rfl⟩
  | flush ft clk => exact Refines.bind (flush_refines ft clk h) rfl fun r w' hg _ _ => Refines.pure hg
  | input data pkt nd clk =>
    have hsrc : ∀ b, (none : Option Nat) = some b → 0 < holders ([] : Held) b := fun b hb => nomatch hb
    exact Refines.bind (input_refines hsrc data pkt nd clk h) rfl fun r w' hg _ _ => Refines.pure hg
  | noDelay a b c d =>
    refine (wp_bind _ _).2 <| wp_onFields h (noDelay_fits a b c d) fun w' hg hf hk => ⟨hg, hf, ?_⟩
    rw [hk]
    rfl
  | wndSize a b =>
    refine (wp_bind _ _).2 <| wp_onFields h (wndSize_fits a b) fun w' hg hf hk => ⟨hg, hf, ?_⟩
    rw [hk]
    rfl
  | setMtu mtu =>
    refine (wp_bind _ _).2 <| wp_get.2 <| (wp_bind _ _).2 <| (wp_call _).2 ⟨fun r hr => ?_, fun e he => ?_⟩
    · refine (wp_bind _ _).2 <| wp_onFields h (setMtu_fits hr) fun w' hg hf hk => ⟨hg, hf, ?_⟩
      rw [L2.step, hr, hk]
      rfl
    · refine ⟨h.clean, ?_⟩
      rw [L2.step, he]
      rfl
  | setStream on =>
    refine (wp_bind _ _).2 <| wp_onFields h ⟨rfl, rfl, rfl, rfl⟩ fun w' hg hf hk => ⟨hg, hf, ?_⟩
    rw [hk]
    rfl
  | resetRTO clk =>
    have hdata : ((w.kcp.resetRTO clk).sndBuf.map fun s => s.data.isSome) = w.sndBuf.map fun c => c.1.data.isSome := by
      simp [KCP.resetRTO, World.kcp, Function.comp_def]
    obtain ⟨hg, hk⟩ := rezip_world hdata h
    refine (wp_bind _ _).2 <| (wp_modify _).2 ⟨hg, rfl, ?_⟩
    rw [hk]
    rfl
  | waitSnd => exact ⟨h, rfl, rfl⟩
  | update clk => exact Refines.bind (update_refines clk h) rfl fun r w' hg _ _ => Refines.pure hg
  | check now => exact ⟨h, rfl, rfl⟩

end

end KcpGo.L2.Buffers
