import KcpGo.L2Machine.Buffers
import KcpGo.L2Machine.FlushSpec
import KcpGo.L2Machine.InputSpec

/-!
# A control block keeps its buffers
-/
namespace KcpGo.L2.Buffers

open KcpGo.L1 KcpGo.Ledger GoM

/-! ## What is held -/

/-- How many segments of the list have the buffer behind them. -/
def bufs (q : List Cell) (b : Nat) : Nat := q.countP fun c => c.1.data.isSome && c.2 == b

@[simp] theorem bufs_nil (b : Nat) : bufs [] b = 0 := rfl

@[simp] theorem bufs_cons (c : Cell) (q : List Cell) (b : Nat) :
    bufs (c :: q) b = bufs q b + if c.1.data.isSome = true ∧ c.2 = b then 1 else 0 := by
  simp [bufs, List.countP_cons]

@[simp] theorem bufs_append (q r : List Cell) (b : Nat) : bufs (q ++ r) b = bufs q b + bufs r b := List.countP_append

theorem bufs_perm {q r : List Cell} (h : q.Perm r) (b : Nat) : bufs q b = bufs r b := h.countP_eq _

@[simp] theorem holders_held (p : Place) (q : List Cell) (b : Nat) : holders (held p q) b = bufs q b := by
  rw [holders, held, List.countP_map, List.countP_filter]
  exact List.countP_congr fun c _ => by simp [and_comm]

@[simp] theorem holders_owned (w : World) (b : Nat) : holders w.owned b =
    bufs w.sndQueue b + bufs w.sndBuf b + bufs w.rcvBuf b + bufs w.rcvQueue b + holders (heldFec w.fec) b := by
  simp only [World.owned, holders_append, holders_held]

/-- A segment with data has its buffer. -/
theorem bufs_pos {q : List Cell} {c : Cell} (h : c ∈ q) (hd : c.1.data.isSome = true) : 0 < bufs q c.2 :=
  List.countP_pos_iff.2 ⟨c, h, by simp [hd]⟩

/-- The buffers stay if no segment gets or loses its data. -/
theorem bufs_rezip (b : Nat) : ∀ {q : List Cell} {segs : List Segment},
    (segs.map fun s => s.data.isSome) = q.map (fun c => c.1.data.isSome) → bufs (rezip segs q) b = bufs q b := by
  intro q
  induction q with
  | nil =>
    intro segs h
    rw [List.map_eq_nil_iff.1 h]
    rfl
  | cons c q ih =>
    intro segs h
    cases segs with
    | nil => cases h
    | cons s segs =>
      obtain ⟨hd, ht⟩ := List.cons.inj h
      rw [bufs_cons, ← ih ht, rezip, List.map_cons, List.zip_cons_cons, bufs_cons]
      dsimp only at hd ⊢
      rw [hd]
      rfl

theorem rezip_fst {segs : List Segment} {q : List Cell} (h : segs.length = q.length) :
    (rezip segs q).map Prod.fst = segs :=
  List.map_fst_zip (by simp [h])

/-! ## Refinement -/

/-- The books are right, `vars` being held besides. -/
def Good (vars : Held) (w : World) : Prop := Kept (w.owned ++ vars) w.books

/-- The buffers of the control block. -/
def World.segs (w : World) (b : Nat) : Nat := bufs w.sndQueue b + bufs w.sndBuf b + bufs w.rcvBuf b + bufs w.rcvQueue b

theorem holders_world (w : World) (vars : Held) (b : Nat) :
    holders (w.owned ++ vars) b = w.segs b + holders (heldFec w.fec) b + holders vars b := by
  rw [holders_append, holders_owned, World.segs]

/-- Buffers that change places among the segments and the variables. -/
theorem Good.move {vars vars' : Held} {w w' : World} (h : Good vars w) (hb : w'.books = w.books) (hf : w'.fec = w.fec)
    (he : ∀ b, w'.segs b + holders vars' b = w.segs b + holders vars b) : Good vars' w' := by
  have hk : Kept (w'.owned ++ vars') w.books := Kept.move h fun b => by
    rw [holders_world, holders_world, hf]
    have := he b
    omega
  rwa [← hb] at hk

/-- The function keeps the books, at a panic too, and does to the control
block what `g` does. At its end `post` is held besides. -/
def Refines {α : Type} (post : α → Held) (x : M α) (g : Go (KCP × α)) (w : World) : Prop :=
  x.wp (fun e w' => w'.books.Clean ∧ g = .error e)
    (fun a w' => Good (post a) w' ∧ w'.fec = w.fec ∧ g = .ok (w'.kcp, a)) w

section
variable {α β : Type} {vars : Held} {post : β → Held} {w : World}

/-- The rest of a function, from the state it has come to. -/
theorem Refines.rest {x : M β} {g g' : Go (KCP × β)} {w₁ : World} (h : Refines post x g w₁)
    (hf : w₁.fec = w.fec) (hg : g' = g) :
    x.wp (fun e w' => w'.books.Clean ∧ g' = .error e)
      (fun a w' => Good (post a) w' ∧ w'.fec = w.fec ∧ g' = .ok (w'.kcp, a)) w₁ := by
  subst hg
  exact wp_mono h (fun e w' he => he) fun a w' ha => ⟨ha.1, ha.2.1.trans hf, ha.2.2⟩

theorem Refines.bind {mid : α → Held} {x : M α} {f : α → M β} {g : Go (KCP × α)}
    {h : KCP × α → Go (KCP × β)} {gh : Go (KCP × β)}
    (hx : Refines mid x g w) (hgh : gh = g >>= h)
    (hf : ∀ a w', Good (mid a) w' → w'.fec = w.fec → g = .ok (w'.kcp, a) → Refines post (f a) (h (w'.kcp, a)) w') :
    Refines post (x >>= f) gh w := by
  subst hgh
  unfold Refines at hx ⊢
  rw [wp_bind]
  refine wp_mono hx (fun e w' he => ?_) fun a w' ha => ?_
  · obtain ⟨hc, rfl⟩ := he
    exact ⟨hc, rfl⟩
  · obtain ⟨hgood, hfec, rfl⟩ := ha
    exact (hf a w' hgood hfec rfl).rest hfec rfl

theorem Refines.pure {a : β} (h : Good (post a) w) : Refines post (Pure.pure a) (.ok (w.kcp, a)) w := ⟨h, rfl, rfl⟩

end

namespace World

variable (w : World) (bk : Books Place)

@[simp] theorem keep_ctl : (w.keep bk).ctl = w.ctl := rfl
@[simp] theorem keep_sndQueue : (w.keep bk).sndQueue = w.sndQueue := rfl
@[simp] theorem keep_sndBuf : (w.keep bk).sndBuf = w.sndBuf := rfl
@[simp] theorem keep_rcvBuf : (w.keep bk).rcvBuf = w.rcvBuf := rfl
@[simp] theorem keep_rcvQueue : (w.keep bk).rcvQueue = w.rcvQueue := rfl
@[simp] theorem keep_fec : (w.keep bk).fec = w.fec := rfl
@[simp] theorem keep_books : (w.keep bk).books = bk := rfl
@[simp] theorem keep_kcp : (w.keep bk).kcp = w.kcp := rfl
@[simp] theorem keep_segs : (w.keep bk).segs = w.segs := rfl
@[simp] theorem keep_owned : (w.keep bk).owned = w.owned := rfl
@[simp] theorem keep_keep (bk' : Books Place) : (w.keep bk).keep bk' = w.keep bk' := rfl

end World

/-! ## The acts -/

section
variable {vars vars' : Held} {w w' : World} {b : Nat} {E : Panic → World → Prop}
variable {Q : Unit → World → Prop}

theorem wp_getBuf (h : Good vars w) (p : Place) {Q : Nat → World → Prop}
    (hQ : ∀ b bk, Good ((p, b) :: vars) (w.keep bk) → Q b (w.keep bk)) : wp (getBuf vars) E Q w := by
  refine hQ _ _ (Kept.move (Kept.get h p) fun c => ?_)
  simp only [World.keep_owned, holders_append, holders_cons]
  exact (Nat.add_assoc _ _ _).symm

theorem wp_useBuf (h : Good vars w) (hb : 0 < holders (w.owned ++ vars) b)
    (hQ : ∀ bk, Good vars (w.keep bk) → Q () (w.keep bk)) : wp (useBuf vars b) E Q w := hQ _ (Kept.use h hb)

/-- The buffer is in a segment or a variable. -/
theorem wp_useSegBuf (h : Good vars w) (hb : 0 < w.segs b + holders vars b)
    (hQ : ∀ bk, Good vars (w.keep bk) → Q () (w.keep bk)) : wp (useBuf vars b) E Q w := by
  refine wp_useBuf h ?_ hQ
  rw [holders_world]
  omega

theorem var_held (p : Place) (b : Nat) (vars : Held) (n : Nat) : 0 < n + holders ((p, b) :: vars) b := by
  rw [holders_cons, if_pos rfl]
  omega

/-- After `Put` the buffer must be out of its place. -/
theorem wp_putBuf (h : Good vars w)
    (hQ : ∀ bk, (∀ w' vars', w'.books = bk →
      (∀ c, holders (w.owned ++ vars) c = holders (w'.owned ++ vars') c + if b = c then 1 else 0) → Good vars' w') →
        Q () (w.keep bk)) :
    wp (putBuf vars b) E Q w := by
  refine hQ _ fun w' vars' hb he => ?_
  have hk : Kept (w'.owned ++ vars') (w.books.put (w.owned ++ vars) b) := Kept.put h he
  rwa [← hb] at hk

/-- The buffer was in a segment or a variable. -/
theorem wp_putSeg (h : Good vars w)
    (hQ : ∀ bk, (∀ w' vars', w'.books = bk → w'.fec = w.fec →
      (∀ c, w.segs c + holders vars c = w'.segs c + holders vars' c + if b = c then 1 else 0) → Good vars' w') →
        Q () (w.keep bk)) :
    wp (putBuf vars b) E Q w := by
  refine wp_putBuf h fun bk hbk => hQ bk fun w' vars' hb hf he => hbk w' vars' hb fun c => ?_
  rw [holders_world, holders_world, hf]
  have := he c
  omega

theorem wp_getSlice (h : Good vars w) (p : Place) {size : Nat} {Q : Nat → World → Prop}
    (hQ : ¬ maxPacketSize < size → ∀ b bk, Good ((p, b) :: vars) (w.keep bk) → Q b (w.keep bk))
    (hE : maxPacketSize < size → ∀ bk, bk.Clean → E .sliceBounds (w.keep bk)) : wp (getSlice vars size) E Q w := by
  refine (wp_bind _ _).2 (wp_getBuf h p fun b bk hg => ?_)
  by_cases hs : maxPacketSize < size
  · rw [if_pos hs]
    exact hE hs bk hg.clean
  · rw [if_neg hs]
    exact hQ hs b bk hg

theorem wp_useSeg (h : Good vars w) {seg : Cell} (hs : seg.1.data.isSome = true → 0 < w.segs seg.2 + holders vars seg.2)
    (hQ : ∀ bk, Good vars (w.keep bk) → Q () (w.keep bk)) : wp (useSeg vars seg) E Q w := by
  unfold useSeg
  split
  · rename_i hd
    exact wp_useSegBuf h (hs hd) hQ
  · exact hQ w.books h

end

/-! ## `Send` -/

section
variable {vars : Held}

theorem fragments_refines : ∀ (n : Nat) (buffer : Bytes) {w : World}, Good vars w →
    Refines (fun _ => vars) (fragments vars n buffer) (do
      let segs ← KCP.fragments w.ctl.stream w.ctl.mss.toNat n buffer
      .ok ({ w.kcp with sndQueue := w.kcp.sndQueue ++ segs }, ())) w := by
  intro n
  induction n with
  | zero =>
    intro buffer w h
    refine ⟨h, rfl, ?_⟩
    simp [KCP.fragments]
  | succ n ih =>
    intro buffer w h
    unfold Refines
    rw [fragments, KCP.fragments]
    refine (wp_bind _ _).2 <| wp_get.2 <| (wp_bind _ _).2 <| wp_getSlice h .segment
      (fun hs b bk hg => ?_) fun hs bk hc => ?_
    · refine (wp_bind _ _).2 <| wp_useSegBuf hg (var_held _ _ _ _) fun bk' hu => ?_
      refine (wp_bind _ _).2 <| (wp_modify _).2 ?_
      rw [if_neg hs]
      refine (ih _ ?_).rest ?_ ?_
      · refine hu.move rfl rfl fun c => ?_
        simp [World.segs]
        omega
      · rfl
      · cases hr : KCP.fragments w.ctl.stream w.ctl.mss.toNat n (buffer.drop (min buffer.length w.ctl.mss.toNat)) with
        | ok segs =>
          simp [hr, World.kcp]
        | error e => simp [hr]
    · rw [if_pos hs]
      exact ⟨hc, rfl⟩

theorem sendFresh_refines (buffer : Bytes) {w : World} (h : Good vars w) :
    Refines (fun _ => vars) (sendFresh vars buffer) (w.kcp.sendFresh buffer) w := by
  unfold Refines sendFresh KCP.sendFresh
  refine (wp_bind _ _).2 <| wp_get.2 <| (wp_bind _ _).2 <| (wp_call _).2 ⟨fun count hc => ?_, fun e he => ?_⟩
  · have hc' : KCP.fragCount w.kcp.mss.toNat buffer.length = .ok count := hc
    rw [hc', Go.ok_bind]
    by_cases hmany : 255 < count
    · rw [if_pos hmany, if_pos hmany]
      exact Refines.pure h
    · rw [if_neg hmany, if_neg hmany]
      refine Refines.bind (h := fun r => .ok (r.1, 0)) (fragments_refines count buffer h) ?_ fun _ w' hg _ _ =>
        Refines.pure hg
      show (KCP.fragments w.ctl.stream w.ctl.mss.toNat count buffer >>= _) = _
      cases KCP.fragments w.ctl.stream w.ctl.mss.toNat count buffer <;> rfl
  · refine ⟨h.clean, ?_⟩
    have he' : KCP.fragCount w.kcp.mss.toNat buffer.length = .error e := he
    rw [he']
    rfl

/-- Stream mode writes into the buffer of the last segment in the queue. -/
theorem extendTail_refines {buffer : Bytes} (hb : buffer ≠ []) {w : World} (h : Good vars w) :
    Refines (fun _ => vars) (extendTail vars buffer) (do
      let (q, left) ← KCP.extendTail w.kcp.mss.toNat w.kcp.sndQueue buffer
      .ok ({ w.kcp with sndQueue := q }, left)) w := by
  unfold Refines extendTail KCP.extendTail
  refine (wp_bind _ _).2 <| wp_get.2 ?_
  have hlast : w.kcp.sndQueue.getLast? = w.sndQueue.getLast?.map Prod.fst := List.getLast?_map
  rw [hlast]
  cases hq : w.sndQueue.getLast? with
  | none => exact ⟨h, rfl, rfl⟩
  | some seg =>
    obtain ⟨init, hinit⟩ := List.getLast?_eq_some_iff.1 hq
    show wp (if seg.1.len < w.ctl.mss.toNat then _ else _) _ _ w
    by_cases hroom : seg.1.len < w.ctl.mss.toNat
    · have hroom' : seg.1.len < w.kcp.mss.toNat := hroom
      rw [if_pos hroom]
      simp only [Option.map_some, hroom', if_true]
      by_cases hcap : KCP.dataCap seg.1 < seg.1.len + min buffer.length (w.ctl.mss.toNat - seg.1.len)
      · rw [if_pos hcap]
        refine ⟨h.clean, ?_⟩
        show ((if KCP.dataCap seg.1 < seg.1.len + min buffer.length (w.ctl.mss.toNat - seg.1.len) then _
          else _) >>= _) = _
        rw [if_pos hcap]
        rfl
      · have hdata : seg.1.data.isSome = true := by
          -- nil has no room, and there is something to write
          refine Decidable.byContradiction fun hnil => hcap ?_
          have hlen := List.length_pos_iff.2 hb
          rw [KCP.dataCap, if_neg hnil]
          omega
        have hmem : seg ∈ w.sndQueue := hinit ▸ List.mem_append_right init List.mem_cons_self
        have hpos := bufs_pos hmem hdata
        rw [if_neg hcap]
        refine (wp_bind _ _).2 <| wp_useSegBuf h (by unfold World.segs; omega) fun bk hu => ?_
        refine (wp_bind _ _).2 <| (wp_modify _).2 <| (wp_pure _).2 ⟨hu.move rfl rfl fun c => ?_, rfl, ?_⟩
        · simp [World.segs, hinit, hdata]
        · show ((if KCP.dataCap seg.1 < seg.1.len + min buffer.length (w.ctl.mss.toNat - seg.1.len) then _
            else _) >>= _) = _
          rw [if_neg hcap]
          simp [World.kcp, hinit]
    · have hroom' : ¬ seg.1.len < w.kcp.mss.toNat := hroom
      rw [if_neg hroom]
      simp only [Option.map_some, hroom', if_false]
      exact ⟨h, rfl, rfl⟩

theorem send_refines (buffer : Bytes) {w : World} (h : Good vars w) :
    Refines (fun _ => vars) (send vars buffer) (w.kcp.send buffer) w := by
  unfold Refines send KCP.send
  refine (wp_bind _ _).2 <| wp_get.2 ?_
  by_cases hb : buffer = []
  · rw [if_pos hb, if_pos hb]
    exact Refines.pure h
  · rw [if_neg hb, if_neg hb]
    by_cases hs : w.ctl.stream = 0
    · have hs' : w.kcp.stream = 0 := hs
      rw [if_pos hs, if_pos hs']
      exact sendFresh_refines buffer h
    · have hs' : ¬ w.kcp.stream = 0 := hs
      rw [if_neg hs, if_neg hs']
      refine Refines.bind (h := fun r => if r.2 = [] then .ok (r.1, 0) else r.1.sendFresh r.2)
        (extendTail_refines hb h) ?_ fun left w' hg _ _ => ?_
      · cases KCP.extendTail w.kcp.mss.toNat w.kcp.sndQueue buffer <;> rfl
      · dsimp only
        split
        · exact Refines.pure hg
        · exact sendFresh_refines left hg

end

/-! ## `flush` -/

/-- A control block with the queues of the world. -/
structure Fits (w : World) (k : KCP) : Prop where
  sndQueue : k.sndQueue = w.kcp.sndQueue
  sndBuf : k.sndBuf = w.kcp.sndBuf
  rcvBuf : k.rcvBuf = w.kcp.rcvBuf
  rcvQueue : k.rcvQueue = w.kcp.rcvQueue

theorem Fits.kcp {w : World} {k : KCP} (h : Fits w k) : ({ w with ctl := k } : World).kcp = k := by
  obtain ⟨h1, h2, h3, h4⟩ := h
  have hr : (⟨w.rcvBuf.map Prod.fst, k.rcvBuf.marks⟩ : SegHeap) = k.rcvBuf := by
    rw [h3]
    rfl
  show { k with sndQueue := w.kcp.sndQueue, sndBuf := w.kcp.sndBuf
                rcvBuf := ⟨w.rcvBuf.map Prod.fst, k.rcvBuf.marks⟩, rcvQueue := w.kcp.rcvQueue } = k
  rw [hr, ← h1, ← h2, ← h4]

theorem fillWindow_books (cwnd : UInt32) : ∀ (q : List Cell) (w : World),
    (fillWindow cwnd w q).1.books = w.books ∧ (fillWindow cwnd w q).1.fec = w.fec ∧
      ∀ b, (fillWindow cwnd w q).1.segs b + bufs w.sndQueue b = w.segs b + bufs q b := by
  intro q
  induction q with
  | nil =>
    intro w
    refine ⟨rfl, rfl, fun b => ?_⟩
    simp [fillWindow, World.segs]
    omega
  | cons s q ih =>
    intro w
    rw [fillWindow]
    split
    · refine ⟨rfl, rfl, fun b => ?_⟩
      simp only [World.segs]
      omega
    · obtain ⟨h1, h2, h3⟩ := ih { w with
        sndBuf := w.sndBuf ++ [(KCP.numbered w.ctl.conv w.ctl.sndNxt s.1, s.2)]
        ctl := { w.ctl with sndNxt := w.ctl.sndNxt + 1 } }
      refine ⟨h1, h2, fun b => ?_⟩
      have := h3 b
      simp only [World.segs, bufs_append, bufs_cons, bufs_nil, KCP.numbered] at this ⊢
      omega

theorem fillWindow_kcp (cwnd : UInt32) : ∀ (q : List Cell) (w : World),
    KCP.fillWindow cwnd w.kcp (q.map Prod.fst) = ((fillWindow cwnd w q).1.kcp, (fillWindow cwnd w q).2) := by
  intro q
  induction q with
  | nil => exact fun w => rfl
  | cons s q ih =>
    intro w
    rw [List.map_cons, KCP.fillWindow, fillWindow]
    by_cases hfull : 0 ≤ itimediff w.ctl.sndNxt (w.ctl.sndUna + cwnd)
    · have hfull' : 0 ≤ itimediff w.kcp.sndNxt (w.kcp.sndUna + cwnd) := hfull
      rw [if_pos hfull, if_pos hfull']
      rfl
    · have hfull' : ¬ 0 ≤ itimediff w.kcp.sndNxt (w.kcp.sndUna + cwnd) := hfull
      have hnext := ih { w with
        sndBuf := w.sndBuf ++ [(KCP.numbered w.ctl.conv w.ctl.sndNxt s.1, s.2)]
        ctl := { w.ctl with sndNxt := w.ctl.sndNxt + 1 } }
      rw [if_neg hfull, if_neg hfull']
      simp only [World.kcp, List.map_append, List.map_cons, List.map_nil] at hnext ⊢
      rw [hnext]

section
variable {vars : Held} {k : KCP} {seg : Segment} {w : World}

/-- Sending a segment reads its buffer. -/
theorem transmit_reads {r : KCP.Reason} {s : Cell} {x : KCP.Xmit} (h : Good vars w) (hs : s ∈ w.sndBuf) :
    wp (transmit vars k seg r s x) (fun e w' => w'.books.Clean ∧ KCP.transmit k seg r s.1 x = .error e)
      (fun y w' => (∃ bk, w' = w.keep bk) ∧ Good vars w' ∧ y.1.data = s.1.data ∧
        KCP.transmit k seg r s.1 x = .ok y) w := by
  unfold transmit KCP.transmit
  refine (wp_bind _ _).2 <| (wp_call _).2 ⟨fun wr hwr => ?_, fun e he => ?_⟩
  · rw [hwr, Go.ok_bind]
    refine (wp_bind _ _).2 <| wp_useSeg h (fun hd => ?_) fun bk hg => ?_
    · have := bufs_pos hs hd
      unfold World.segs
      omega
    refine (wp_bind _ _).2 <| (wp_call _).2 ⟨fun wr' hwr' => ?_, fun e he => ?_⟩
    · rw [hwr']
      refine ⟨⟨bk, rfl⟩, hg, ?_, rfl⟩
      cases r <;> rfl
    · rw [he]
      exact ⟨hg.clean, rfl⟩
  · rw [he]
    exact ⟨h.clean, rfl⟩

theorem resendOne_reads {resent : UInt32} {n : Nat} {s : Cell} {x : KCP.Xmit} (h : Good vars w) (hs : s ∈ w.sndBuf) :
    wp (resendOne vars k seg resent n s x) (fun e w' => w'.books.Clean ∧ KCP.resendOne k seg resent n s.1 x = .error e)
      (fun y w' => (∃ bk, w' = w.keep bk) ∧ Good vars w' ∧ y.1.data = s.1.data ∧
        KCP.resendOne k seg resent n s.1 x = .ok y) w := by
  unfold resendOne KCP.resendOne
  by_cases ha : s.1.acked = 1
  · rw [if_pos ha, if_pos ha]
    exact ⟨⟨w.books, rfl⟩, h, rfl, rfl⟩
  · rw [if_neg ha, if_neg ha]
    cases KCP.reason resent n x.current s.1 with
    | none => exact ⟨⟨w.books, rfl⟩, h, rfl, rfl⟩
    | some r =>
      refine (wp_bind _ _).2 <| wp_mono (transmit_reads h hs) (fun e w' he => ?_) fun y w' hy => ?_
      · dsimp only
        rw [he.2]
        exact ⟨he.1, rfl⟩
      · dsimp only
        rw [hy.2.2.2]
        exact ⟨hy.1, hy.2.1, hy.2.2.1, rfl⟩

/-- Phase 5 reads the buffers of segments in `snd_buf`. -/
theorem resendLoop_reads {resent : UInt32} {n : Nat} : ∀ (q : List Cell) (x : KCP.Xmit) {w : World}, Good vars w →
    (∀ s ∈ q, s ∈ w.sndBuf) →
    wp (resendLoop vars k seg resent n q x)
      (fun e w' => w'.books.Clean ∧ KCP.resendLoop k seg resent n (q.map Prod.fst) x = .error e)
      (fun y w' => (∃ bk, w' = w.keep bk) ∧ Good vars w' ∧ (∀ b, bufs y.1 b = bufs q b) ∧
        KCP.resendLoop k seg resent n (q.map Prod.fst) x = .ok (y.1.map Prod.fst, y.2)) w := by
  intro q
  induction q with
  | nil => exact fun x w h _ => ⟨⟨w.books, rfl⟩, h, fun _ => rfl, rfl⟩
  | cons s q ih =>
    intro x w h hq
    obtain ⟨hs, hq⟩ := List.forall_mem_cons.1 hq
    rw [resendLoop, List.map_cons, KCP.resendLoop]
    refine (wp_bind _ _).2 <| wp_mono (resendOne_reads h hs) (fun e w' he => ?_) fun y w' hy => ?_
    · rw [he.2]
      exact ⟨he.1, rfl⟩
    obtain ⟨s', x'⟩ := y
    obtain ⟨⟨bk, rfl⟩, hg, hd, hr⟩ := hy
    rw [hr, Go.ok_bind]
    dsimp only at hd ⊢
    refine (wp_bind _ _).2 <| wp_mono (ih x' hg hq) (fun e w' he => ?_) fun z w' hz => ?_
    · rw [he.2]
      exact ⟨he.1, rfl⟩
    obtain ⟨⟨bk', rfl⟩, hg', hb, hr'⟩ := hz
    rw [hr']
    refine ⟨⟨bk', rfl⟩, hg', fun b => ?_, rfl⟩
    rw [bufs_cons, bufs_cons, hb b, hd]

theorem resendBuf_reads {ft : FlushType} {n : Nat} {x : KCP.Xmit} (hk : k.sndBuf = w.kcp.sndBuf) (h : Good vars w) :
    wp (resendBuf vars k ft seg n x) (fun e w' => w'.books.Clean ∧ KCP.resendBuf k ft seg n x = .error e)
      (fun y w' => (∃ bk, w' = w.keep bk) ∧ Good vars w' ∧ (∀ b, bufs y.1 b = bufs w.sndBuf b) ∧
        KCP.resendBuf k ft seg n x = .ok (y.1.map Prod.fst, y.2)) w := by
  unfold resendBuf KCP.resendBuf
  refine (wp_bind _ _).2 <| wp_get.2 ?_
  rw [hk]
  cases ft with
  | full => exact resendLoop_reads w.sndBuf x h fun s hs => hs
  | ackOnly => exact ⟨⟨w.books, rfl⟩, h, fun _ => rfl, rfl⟩

theorem flushData_refines {ft : FlushType} {clk : Clock} {n : Nat} {wr : Writer} (h : Good vars w) :
    Refines (fun _ => vars) (flushData vars ft clk seg n wr) (w.kcp.flushData ft clk seg n wr) w := by
  unfold Refines flushData KCP.flushData
  refine (wp_bind _ _).2 <| wp_get.2 <| (wp_bind _ _).2 <| wp_mono (resendBuf_reads rfl h)
    (fun e w' he => ?_) fun y w' hy => ?_
  · rw [he.2]
    exact ⟨he.1, rfl⟩
  obtain ⟨⟨bk, rfl⟩, hg, hb, hr⟩ := hy
  rw [hr]
  refine (wp_bind _ _).2 <| (wp_modify _).2 <| (wp_pure _).2 ⟨hg.move rfl rfl fun b => ?_, rfl, ?_⟩
  · simp only [World.segs, hb, World.keep_sndQueue, World.keep_sndBuf, World.keep_rcvBuf, World.keep_rcvQueue]
  · obtain ⟨a, b, c, hu, -⟩ :=
      KCP.updateCwnd_spec { w.kcp with sndBuf := y.1.map Prod.fst, state := y.2.state } w.kcp.sendWindow
        w.kcp.resentOf y.2.change y.2.lost
    simp only [Go.ok_bind, hu]
    rfl

/-- The world after phases 1 to 3. -/
theorem flush_fits (clk : Clock) : Fits w { (KCP.probeTimer { w.kcp with acklist := [] } clk).1 with probe := 0 } := by
  obtain ⟨a, t, p, ht⟩ := KCP.probeTimer_spec { w.kcp with acklist := [] } clk
  rw [ht]
  exact ⟨rfl, rfl, rfl, rfl⟩

theorem flush_refines (ft : FlushType) (clk : Clock) (h : Good vars w) :
    Refines (fun _ => vars) (flush vars ft clk) (w.kcp.flush ft clk) w := by
  unfold Refines flush KCP.flush
  refine (wp_bind _ _).2 <| wp_get.2 <| (wp_bind _ _).2 <| (wp_call _).2 ⟨fun y hy => ?_, fun e he => ?_⟩
  · obtain ⟨seg, wr⟩ := y
    rw [hy, Go.ok_bind]
    dsimp only
    have hfits := flush_fits (w := w) clk
    generalize KCP.probeTimer { w.kcp with acklist := [] } clk = t at hfits
    obtain ⟨k, clk'⟩ := t
    dsimp only at hfits ⊢
    refine (wp_bind _ _).2 <| (wp_call _).2 ⟨fun z hz => ?_, fun e he => ?_⟩
    · obtain ⟨seg', wr'⟩ := z
      rw [hz, Go.ok_bind]
      dsimp only
      have hk : k.sndQueue = w.sndQueue.map Prod.fst := hfits.sndQueue
      have hfill := fillWindow_kcp k.sendWindow w.sndQueue { w with ctl := { k with probe := 0 } }
      obtain ⟨hbooks, hfec, hsegs⟩ := fillWindow_books k.sendWindow w.sndQueue { w with ctl := { k with probe := 0 } }
      rw [hfits.kcp, ← hk] at hfill
      rw [hfill]
      refine (wp_bind _ _).2 <| (wp_set _).2 <| Refines.rest
        (flushData_refines (h.move hbooks hfec fun b => ?_)) hfec rfl
      have := hsegs b
      simp only [World.segs] at this ⊢
      omega
    · rw [he]
      exact ⟨h.clean, rfl⟩
  · rw [he]
    exact ⟨h.clean, rfl⟩

end

/-! ## `Recv` -/

theorem moveReady_books : ∀ (n : Nat) (w : World), (moveReady n w).books = w.books ∧ (moveReady n w).fec = w.fec ∧
    ∀ b, (moveReady n w).segs b = w.segs b := by
  intro n
  induction n with
  | zero => exact fun w => ⟨rfl, rfl, fun _ => rfl⟩
  | succ n ih =>
    intro w
    rw [moveReady]
    cases hp : BinHeap.pop cellLess w.rcvBuf with
    | none => exact ⟨rfl, rfl, fun _ => rfl⟩
    | some r =>
      obtain ⟨seg, rest⟩ := r
      have hperm := BinHeap.pop_perm hp
      dsimp only
      split
      · obtain ⟨h1, h2, h3⟩ := ih { w with
          rcvBuf := rest
          rcvQueue := w.rcvQueue ++ [seg]
          ctl := { w.ctl with rcvNxt := w.ctl.rcvNxt + 1, rcvBuf := ⟨[], w.ctl.rcvBuf.marks.erase seg.1.sn⟩ } }
        refine ⟨h1, h2, fun b => (h3 b).trans ?_⟩
        have := bufs_perm hperm b
        simp only [World.segs, bufs_append, bufs_cons, bufs_nil] at this ⊢
        omega
      · refine ⟨rfl, rfl, fun b => ?_⟩
        have := bufs_perm ((BinHeap.push_perm cellLess rest seg).trans hperm) b
        simp only [World.segs, this]

theorem pop_fst (l : List Cell) :
    BinHeap.pop SegHeap.less (l.map Prod.fst) = (BinHeap.pop cellLess l).map fun p => (p.1.1, p.2.map Prod.fst) :=
  BinHeap.pop_map (fun _ _ => rfl) l

theorem push_fst (l : List Cell) (c : Cell) :
    BinHeap.push SegHeap.less (l.map Prod.fst) c.1 = (BinHeap.push cellLess l c).map Prod.fst :=
  BinHeap.push_map (fun _ _ => rfl) l c

theorem moveReady_kcp : ∀ (n : Nat) (w : World), KCP.moveReady n w.kcp = (moveReady n w).kcp := by
  intro n
  induction n with
  | zero => exact fun w => rfl
  | succ n ih =>
    intro w
    rw [moveReady, KCP.moveReady]
    have hpop : w.kcp.rcvBuf.pop = (BinHeap.pop cellLess w.rcvBuf).map fun r =>
        (r.1.1, ⟨r.2.map Prod.fst, w.ctl.rcvBuf.marks.erase r.1.1.sn⟩) := by
      show (BinHeap.pop SegHeap.less (w.rcvBuf.map Prod.fst)).map _ = _
      rw [pop_fst, Option.map_map]
      rfl
    rw [hpop]
    cases BinHeap.pop cellLess w.rcvBuf with
    | none => rfl
    | some r =>
      obtain ⟨seg, rest⟩ := r
      dsimp only [Option.map_some]
      have hlen : w.kcp.rcvQueue.length = w.rcvQueue.length := List.length_map _
      by_cases hc : seg.1.sn = w.ctl.rcvNxt ∧ w.rcvQueue.length < w.ctl.rcvWnd.toNat
      · have hc' : seg.1.sn = w.kcp.rcvNxt ∧ w.kcp.rcvQueue.length < w.kcp.rcvWnd.toNat := hlen ▸ hc
        rw [if_pos hc, if_pos hc', ← ih]
        simp only [World.kcp, List.map_append, List.map_cons, List.map_nil]
      · have hc' : ¬ (seg.1.sn = w.kcp.rcvNxt ∧ w.kcp.rcvQueue.length < w.kcp.rcvWnd.toNat) := hlen ▸ hc
        rw [if_neg hc, if_neg hc']
        simp only [World.kcp, SegHeap.push, push_fst]

theorem moveAll_kcp (w : World) : KCP.moveAll w.kcp = (moveAll w).kcp := by
  unfold KCP.moveAll moveAll
  rw [← moveReady_kcp]
  congr 1
  exact List.length_map _

theorem Good.moveAll {vars : Held} {w : World} (h : Good vars w) : Good vars (moveAll w) := by
  obtain ⟨h1, h2, h3⟩ := moveReady_books w.rcvBuf.length w
  exact h.move h1 h2 fun b => by rw [Buffers.moveAll, h3]

section
variable {vars : Held}

/-- A popped segment is held in a variable until it is recycled. -/
theorem wp_recycleVar {w : World} {seg : Cell} (h : Good (held .segment [seg] ++ vars) w) {E : Panic → World → Prop}
    {Q : Cell → World → Prop} (hQ : ∀ seg' bk, Good vars (w.keep bk) → Q seg' (w.keep bk)) :
    wp (recycleSegment (held .segment [seg] ++ vars) seg) E Q w := by
  unfold recycleSegment
  split
  · rename_i hd
    refine (wp_bind _ _).2 <| wp_putSeg h fun bk hput => (wp_pure _).2 <| hQ _ bk ?_
    refine hput _ _ rfl rfl fun c => ?_
    simp [hd]
    omega
  · rename_i hd
    refine hQ _ w.books (h.move rfl rfl fun b => ?_)
    simp [hd]

theorem mergeFragments_spec : ∀ (q : List Cell) (room : Nat) {w : World}, Good vars w → w.rcvQueue = q →
    wp (mergeFragments vars room q)
      (fun e w' => w'.books.Clean ∧ KCP.mergeFragments room (q.map Prod.fst) = .error e)
      (fun d w' => Good vars w' ∧ ∃ bk q', w' = { w with rcvQueue := q', books := bk } ∧
        KCP.mergeFragments room (q.map Prod.fst) = .ok (d, q'.map Prod.fst)) w := by
  intro q
  induction q with
  | nil =>
    intro room w h hq
    refine ⟨h, w.books, [], ?_, rfl⟩
    rw [← hq]
  | cons seg q ih =>
    intro room w h hq
    rw [mergeFragments, List.map_cons, KCP.mergeFragments]
    have hpop : Good (held .segment [seg] ++ vars) { w with rcvQueue := q } := by
      refine h.move rfl rfl fun b => ?_
      simp only [World.segs, hq, holders_append, holders_held, bufs_cons, bufs_nil]
      omega
    refine (wp_bind _ _).2 <| (wp_modify _).2 <| (wp_bind _ _).2 <| wp_useSeg hpop (fun hd => ?_) fun bk hu => ?_
    · simp only [holders_append, holders_held, bufs_cons, bufs_nil, hd, and_self, if_true]
      omega
    by_cases hroom : room < seg.1.len
    · rw [if_pos hroom, if_pos hroom]
      exact ⟨hu.clean, rfl⟩
    rw [if_neg hroom, if_neg hroom]
    refine (wp_bind _ _).2 <| wp_recycleVar hu fun seg' bk' hg => ?_
    by_cases hfrg : seg.1.frg = 0
    · rw [if_pos hfrg, if_pos hfrg]
      exact ⟨hg, bk', q, rfl, rfl⟩
    rw [if_neg hfrg, if_neg hfrg]
    refine (wp_bind _ _).2 <| wp_mono (ih (room - seg.1.len) hg rfl) (fun e w' he => ?_) fun d w' hd => ?_
    · rw [he.2]
      exact ⟨he.1, rfl⟩
    · obtain ⟨hg', bk'', q', rfl, hm⟩ := hd
      rw [hm]
      exact ⟨hg', bk'', q', rfl, rfl⟩

theorem recv_refines (room : Nat) {w : World} (h : Good vars w) :
    Refines (fun _ => vars) (recv vars room) (w.kcp.recv room) w := by
  unfold Refines recv KCP.recv
  refine (wp_bind _ _).2 <| wp_get.2 ?_
  by_cases h1 : w.kcp.peekSize < 0
  · rw [if_pos h1, if_pos h1]
    exact Refines.pure h
  rw [if_neg h1, if_neg h1]
  by_cases h2 : (room : Int) < w.kcp.peekSize
  · rw [if_pos h2, if_pos h2]
    exact Refines.pure h
  rw [if_neg h2, if_neg h2]
  refine (wp_bind _ _).2 <| wp_mono (mergeFragments_spec w.rcvQueue room h rfl) (fun e w' he => ?_) fun d w' hd => ?_
  · have hm : KCP.mergeFragments room w.kcp.rcvQueue = .error e := he.2
    rw [hm]
    exact ⟨he.1, rfl⟩
  · obtain ⟨hg, bk, q', rfl, hm⟩ := hd
    have hm' : KCP.mergeFragments room w.kcp.rcvQueue = .ok (d, q'.map Prod.fst) := hm
    rw [hm', Go.ok_bind]
    refine (wp_bind _ _).2 <| (wp_modify _).2 <| (wp_bind _ _).2 <| (wp_modify _).2 <| (wp_pure _).2 ?_
    have hall := moveAll_kcp { w with rcvQueue := q', books := bk }
    have hgood := hg.moveAll
    have hfec : (moveAll { w with rcvQueue := q', books := bk }).fec = w.fec := (moveReady_books _ _).2.1
    have hk : { w.kcp with rcvQueue := q'.map Prod.fst } = ({ w with rcvQueue := q', books := bk } : World).kcp := rfl
    dsimp only
    rw [hk, hall]
    generalize moveAll { w with rcvQueue := q', books := bk } = w₁ at hgood hfec
    have hlen : w₁.kcp.rcvQueue.length = w₁.rcvQueue.length := List.length_map _
    have hlen' : w.kcp.rcvQueue.length = w.rcvQueue.length := List.length_map _
    rw [hlen, hlen']
    by_cases hc : w₁.rcvQueue.length < w₁.ctl.rcvWnd.toNat ∧ w.ctl.rcvWnd.toNat ≤ w.rcvQueue.length
    · have hc' : w₁.rcvQueue.length < w₁.kcp.rcvWnd.toNat ∧ w.kcp.rcvWnd.toNat ≤ w.rcvQueue.length := hc
      rw [if_pos hc, if_pos hc']
      exact ⟨hgood, hfec, rfl⟩
    · have hc' : ¬ (w₁.rcvQueue.length < w₁.kcp.rcvWnd.toNat ∧ w.kcp.rcvWnd.toNat ≤ w.rcvQueue.length) := hc
      rw [if_neg hc, if_neg hc']
      exact ⟨hgood, hfec, rfl⟩

end

end KcpGo.L2.Buffers
