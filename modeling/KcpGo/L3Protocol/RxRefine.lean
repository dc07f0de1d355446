import KcpGo.L3Protocol.Receiver
import KcpGo.L3Protocol.TxRefine

/-!
# The receive side refines the receiver of the link

`RxRel t v al x`: the receive side `v` with its ACK list `al` is the receiver
`x` of a link whose sender has numbered `t.sent`. The segments in `rcv_buf`
and `rcv_queue` are the ones the sender numbered.

* `RxRel.push`: a genuine PUSH segment is `accept` and then `move`s.
* `RxRel.recv`: `Recv` is `take` and then `move`s.
-/
namespace KcpGo.L3

open KcpGo.L1 KcpGo.L2 KcpGo.Serial
open KcpGo.Link (Ctrl Data Tx Rx RxStep RxRun)

variable {al : List AckItem} {t : KTx} {v : Rcv} {x : Rx}

/-- More than any window: genuine numbers are less than this apart. -/
def heapSpan : Nat := 2 ^ 16

structure RxRel (t : KTx) (v : Rcv) (al : List AckItem) (x : Rx) : Prop where
  nxt : v.nxt = u32 x.rcv
  wnd : v.wnd.toNat = x.wnd
  queue : v.queue.map content = (t.sent.take x.rcv).drop x.taken
  order : Consec Segment.sn (u32 x.taken) v.queue
  heap : SegHeap.Inv v.nxt heapSpan v.buf
  segs : ∀ s ∈ v.buf.segments, ∃ i ∈ x.stored, s.sn = u32 i ∧ t.sent[i]? = some (content s)
  stored : ∀ i ∈ x.stored, v.buf.has (u32 i) = true
  acks : al.map AckItem.sn = x.acks.map u32

theorem RxRel.queue_length (h : RxRel t v al x)
    (hl : LinkInv t x) : v.queue.length = x.rcv - x.taken := by
  have := congrArg List.length h.queue
  have hle := hl.rcv_le
  simp only [List.length_map, List.length_drop, List.length_take] at this
  omega

/-- The sender may number more meanwhile. -/
theorem RxRel.grows {t' : KTx} (h : RxRel t v al x)
    (hl : LinkInv t x) (hg : t.Grows t') : RxRel t' v al x := by
  refine ⟨h.nxt, h.wnd, ?_, h.order, h.heap, ?_, h.stored, h.acks⟩
  · obtain ⟨l, hl'⟩ := hg.sent
    rw [h.queue, ← hl', List.take_append_of_le_length hl.rcv_le]
  · intro s hs
    obtain ⟨i, hi, e1, e2⟩ := h.segs s hs
    exact ⟨i, hi, e1, hg.get e2⟩

/-- Genuine numbers of a window are equal when they are equal on the wire. -/
theorem span_inj (hl : LinkInv t x) {i j : Nat} (hi : x.rcv ≤ i ∧ i < t.sent.length)
    (hj : x.rcv ≤ j ∧ j < t.sent.length) (he : u32 i = u32 j) : i = j := by
  have h1 := hl.win
  have h2 := hl.una_le
  simp only [kcpBounds_window] at h1
  exact u32_inj he (by omega) (by omega)

/-- The link's receiver is settled when the control block is. -/
theorem RxRel.settled (h : RxRel t v al x) (hl : LinkInv t x)
    (hs : Settled v) : x.Settled := by
  intro hin
  have hlen := h.queue_length hl
  rcases hs with hfull | hno
  · rw [h.wnd] at hfull
    have := hl.taken
    omega
  · have := h.stored _ hin
    rw [← h.nxt, hno] at this
    cases this

/-! ## The move loop -/

/-- What the move loop takes out are the next numbers. -/
theorem RxRel.moved_get (h : RxRel t v al x) (hl : LinkInv t x)
    {v' : Rcv} {moved : List Segment} (hm : MoveSpec heapSpan v v' moved) {j : Nat} {s : Segment}
    (hs : moved[j]? = some s) :
    s.sn = u32 (x.rcv + j) ∧ x.rcv + j ∈ x.stored ∧ t.sent[x.rcv + j]? = some (content s) := by
  have hsn : s.sn = u32 (x.rcv + j) := by
    rw [consec_iff.mp hm.run j s hs, h.nxt, u32_add]
  obtain ⟨i, hi, e1, e2⟩ := h.segs s
    (hm.perm.mem_iff.mp (List.mem_append_left _ (List.mem_of_getElem? hs)))
  obtain ⟨hj, -⟩ := List.getElem?_eq_some_iff.mp hs
  have hlen : moved.length ≤ heapSpan := by
    have h1 := hm.perm.length_eq
    have h2 := h.heap.length_le
    rw [List.length_append] at h1
    omega
  have hbnd := hl.stored i hi
  have hwin := hl.win
  have huna := hl.una_le
  simp only [kcpBounds_window, heapSpan] at hwin hlen
  have hij : i = x.rcv + j := u32_inj (e1.symm.trans hsn) (by omega) (by omega)
  subst hij
  exact ⟨hsn, hi, e2⟩

theorem RxRel.move {F : Prop} (h : RxRel t v al x)
    (hl : LinkInv t x) {v' : Rcv} {moved : List Segment} (hm : MoveSpec heapSpan v v' moved) :
    RxRel t v' al (x.moves moved.length) ∧ RxRun kcpBounds F t x (x.moves moved.length) := by
  have hget := fun {j : Nat} {s : Segment} (hs : moved[j]? = some s) => h.moved_get hl hm hs
  have hin : ∀ j < moved.length, x.rcv + j ∈ x.stored := by
    intro j hj
    exact (hget (List.getElem?_eq_getElem hj)).2.1
  have hrun : RxRun kcpBounds F t x (x.moves moved.length) := by
    refine Link.rxRun_moves (fun i hi => (hl.stored i hi).1) hin ?_
    rcases hm.room with rfl | hroom
    · exact .inl rfl
    · right
      rw [hm.queue, List.length_append, h.queue_length hl, h.wnd] at hroom
      have := hl.taken
      omega
  have hl' : LinkInv t (x.moves moved.length) := hl.rxRun hrun
  have hlen : moved.length ≤ 65535 := by
    have h1 := hl'.rcv_le
    have h2 := hl'.win
    have h3 := hl.una_le
    simp only [kcpBounds_window, Rx.moves] at h1 h2
    omega
  refine ⟨⟨?_, ?_, ?_, ?_, hm.heap, ?_, ?_, h.acks⟩, hrun⟩
  · rw [hm.nxt, h.nxt, u32_add]
    rfl
  · rw [hm.wnd]
    exact h.wnd
  · -- the queue grows by what was numbered next
    have hslice : moved.map content = (t.sent.take (x.rcv + moved.length)).drop x.rcv := by
      apply List.ext_getElem?
      intro j
      rw [List.getElem?_map, List.getElem?_drop, List.getElem?_take]
      by_cases hj : j < moved.length
      · rw [if_pos (by omega), (hget (List.getElem?_eq_getElem hj)).2.2, List.getElem?_eq_getElem hj]
        rfl
      · rw [if_neg (by omega), List.getElem?_eq_none (by omega)]
        rfl
    have hsplit : t.sent.take (x.rcv + moved.length) =
        t.sent.take x.rcv ++ (t.sent.take (x.rcv + moved.length)).drop x.rcv := by
      conv_lhs => rw [← List.take_append_drop x.rcv (t.sent.take (x.rcv + moved.length))]
      rw [List.take_take, Nat.min_eq_left (by omega)]
    have hdrop : (t.sent.take (x.rcv + moved.length)).drop x.taken =
        (t.sent.take x.rcv).drop x.taken ++ moved.map content := by
      rw [hslice]
      conv_lhs => rw [hsplit]
      refine List.drop_append_of_le_length ?_
      rw [List.length_take]
      have h1 := hl.taken
      have h2 := hl.rcv_le
      omega
    rw [hm.queue, List.map_append, h.queue]
    exact hdrop.symm
  · rw [hm.queue]
    refine h.order.append ?_
    have h1 := hl.taken
    rw [h.queue_length hl, u32_add, Nat.add_sub_cancel' h1, ← h.nxt]
    exact hm.run
  · intro s hs
    obtain ⟨i, hi, e1, e2⟩ := h.segs s (hm.perm.mem_iff.mp (List.mem_append_right _ hs))
    refine ⟨i, Finset.mem_filter.mpr ⟨hi, ?_⟩, e1, e2⟩
    -- still inside the window of the heap, hence not among those moved
    have hkey := hm.heap.window s hs
    have hbnd := hl.stored i hi
    have hwin := hl.win
    have huna := hl.una_le
    simp only [kcpBounds_window, heapSpan] at hwin hkey
    unfold SegHeap.key at hkey
    rw [hm.nxt, h.nxt, u32_add, e1, UInt32.toNat_sub, toNat_u32, toNat_u32] at hkey
    omega
  · intro i hi
    obtain ⟨hi, hge⟩ := Finset.mem_filter.mp hi
    obtain ⟨s, hs, he⟩ := (h.heap.has_iff _).mp (h.stored i hi)
    refine (hm.heap.has_iff _).mpr ⟨s, ?_, he⟩
    rcases List.mem_append.mp (hm.perm.mem_iff.mpr hs) with hmv | hb
    · exfalso
      obtain ⟨j, hj, hsj⟩ := List.mem_iff_getElem.mp hmv
      obtain ⟨e1, e2, -⟩ := hget (List.getElem?_eq_some_iff.mpr ⟨hj, hsj⟩)
      have := span_inj hl (hl.stored i hi) (hl.stored _ e2) (he.symm.trans e1)
      omega
    · exact hb

theorem moveAll_acklist (k : KCP) : k.moveAll.acklist = k.acklist := by
  obtain ⟨b, q, n, e⟩ := KCP.moveReady_frame k.rcvBuf.segments.length k
  rw [KCP.moveAll, e]

/-- The move loop of the code is a run of moves. -/
theorem RxRel.moveAll {k : KCP} {F : Prop} (h : RxRel t k.rcv k.acklist x) (hl : LinkInv t x) :
    ∃ m, RxRel t k.moveAll.rcv k.moveAll.acklist (x.moves m) ∧ RxRun kcpBounds F t x (x.moves m) ∧
      Settled k.moveAll.rcv := by
  obtain ⟨moved, hm⟩ := KCP.moveAll_spec (k := k) (by decide) h.heap
  obtain ⟨h1, h2⟩ := h.move (F := F) hl hm
  rw [moveAll_acklist]
  exact ⟨moved.length, h1, h2, hm.settled⟩

/-! ## PUSH -/

/-- Header and payload of a data message the sender put on the wire. -/
structure DataRel (t : KTx) (h : Header) (payload : Bytes) (d : Data) : Prop where
  mem : d ∈ t.data
  sn : h.sn = u32 d.idx
  payload : t.sent[d.idx]? = some (h.frg, payload)

/-- Where a fresh data message lies. -/
theorem DataRel.near {h : Header} {payload : Bytes} {d : Data} (hd : DataRel t h payload d)
    (hl : LinkInv t x) (hf : t.una ≤ d.una + 2 ^ 30) :
    t.una ≤ d.idx + 2 ^ 30 ∧ d.idx < t.sent.length ∧ (itimediff h.sn (u32 x.rcv)).toInt = (d.idx : Int) - x.rcv := by
  obtain ⟨h1, h2⟩ := hl.data d hd.mem
  have h3 := hl.win
  have h4 := hl.una_le
  have h5 := hl.rcv_le
  simp only [kcpBounds_window] at h3
  refine ⟨by omega, h2, ?_⟩
  rw [hd.sn]
  exact diff_ofNat (by omega) (by omega)

theorem RxRel.acked (h : RxRel t v al x) {i : Nat}
    {st : Finset Nat} (hst : st = x.stored) (ts : UInt32) :
    RxRel t v (al ++ [⟨u32 i, ts⟩]) { x with acks := x.acks ++ [i], stored := st } := by
  subst hst
  exact ⟨h.nxt, h.wnd, h.queue, h.order, h.heap, h.segs, h.stored, by simp [h.acks]⟩

/-- The heap with a new genuine segment. -/
theorem RxRel.store (h : RxRel t v al x) (hl : LinkInv t x)
    {i : Nat} (hi : x.rcv ≤ i ∧ i < t.sent.length) {s : Segment} (hsn : s.sn = u32 i)
    (hp : t.sent[i]? = some (content s)) (hnew : v.buf.has s.sn = false) :
    RxRel t { v with buf := v.buf.push s } al { x with stored := insert i x.stored } := by
  have hwin := hl.win
  have huna := hl.una_le
  simp only [kcpBounds_window] at hwin
  have hkey : SegHeap.key v.nxt s < heapSpan := by
    unfold SegHeap.key heapSpan
    rw [hsn, h.nxt, sub_u32 hi.1 (by omega)]
    omega
  have hheap : SegHeap.Inv v.nxt heapSpan (v.buf.push s) := h.heap.push (by decide) hkey hnew
  have hperm := BinHeap.push_perm SegHeap.less v.buf.segments s
  refine ⟨h.nxt, h.wnd, h.queue, h.order, hheap, ?_, ?_, h.acks⟩
  · intro r hr
    rcases List.mem_cons.mp (hperm.mem_iff.mp hr) with rfl | hr
    · exact ⟨i, Finset.mem_insert_self _ _, hsn, hp⟩
    · obtain ⟨j, hj, e1, e2⟩ := h.segs r hr
      exact ⟨j, Finset.mem_insert_of_mem hj, e1, e2⟩
  · intro j hj
    refine (hheap.has_iff _).mpr ?_
    rcases Finset.mem_insert.mp hj with rfl | hj
    · exact ⟨s, hperm.mem_iff.mpr List.mem_cons_self, hsn⟩
    · obtain ⟨r, hr, he⟩ := (h.heap.has_iff _).mp (h.stored j hj)
      exact ⟨r, hperm.mem_iff.mpr (List.mem_cons_of_mem _ hr), he⟩

/-- What the link does on a data message. -/
structure Pushes (t : KTx) (F : Prop) (k' : KCP) (x x' : Rx) (i : Nat) : Prop where
  run : RxRun kcpBounds F t x x'
  rel : RxRel t k'.rcv k'.acklist x'
  acks : x'.acks = x.acks ∨ x'.acks = x.acks ++ [i]
  taken : x'.taken = x.taken

theorem RxRel.push {k k' : KCP} {F : Prop} {h : Header} {payload : Bytes} {d : Data}
    (hr : RxRel t k.rcv k.acklist x) (hl : LinkInv t x) (hs : KCP.PushSpec k h payload k')
    (hd : DataRel t h payload d) (hf : t.una ≤ d.una + 2 ^ 30) :
    (∃ x', Pushes t F k' x x' d.idx) ∧ (Settled k.rcv → Settled k'.rcv) := by
  obtain ⟨-, hlt, hdist⟩ := hd.near hl hf
  have hrcv : k.rcvNxt = u32 x.rcv := hr.nxt
  have haccept : RxStep kcpBounds F t x (x.accept d.idx) := .accept d hd.mem hf
  have hl' : LinkInv t (x.accept d.idx) := hl.rx haccept
  -- the distance of the code is the true one
  have hge : 0 ≤ itimediff h.sn k.rcvNxt ↔ x.rcv ≤ d.idx := by
    rw [hrcv, Int32.le_iff_toInt_le, hdist, Int32.toInt_zero]
    omega
  cases hs with
  | beyond hb => exact ⟨⟨x, .refl, hr, .inl rfl, rfl⟩, id⟩
  | old hb ho =>
    have hold : ¬ x.rcv ≤ d.idx := fun hle => absurd (hge.mpr hle) (Int32.not_le.mpr ho)
    refine ⟨⟨x.accept d.idx, .single haccept, ?_, .inr rfl, rfl⟩, id⟩
    show RxRel t k.rcv (k.acklist ++ [⟨h.sn, h.ts⟩]) _
    rw [hd.sn]
    exact hr.acked (if_neg hold) h.ts
  | repeated hb hn hrep =>
    have hmem : d.idx ∈ x.stored := by
      obtain ⟨s, hs, he⟩ := (hr.heap.has_iff _).mp hrep
      obtain ⟨j, hj, e1, -⟩ := hr.segs s hs
      have hij : j = d.idx := span_inj hl (hl.stored j hj) ⟨hge.mp hn, hlt⟩ (by rw [← e1, he, hd.sn])
      exact hij ▸ hj
    have hrel : RxRel t (k.ackPush h.sn h.ts).rcv (k.ackPush h.sn h.ts).acklist (x.accept d.idx) := by
      show RxRel t k.rcv (k.acklist ++ [⟨h.sn, h.ts⟩]) _
      rw [hd.sn]
      exact hr.acked (by rw [if_pos (hge.mp hn)]; exact Finset.insert_eq_of_mem hmem) h.ts
    obtain ⟨m, h1, h2, h3⟩ := hrel.moveAll (F := F) hl'
    exact ⟨⟨_, .head haccept h2, h1, .inr rfl, rfl⟩, fun _ => h3⟩
  | stored hb hn hnew hlen =>
    have hrel : RxRel t { k.rcv with buf := k.rcvBuf.push (KCP.pushed h payload) }
        (k.acklist ++ [⟨h.sn, h.ts⟩]) (x.accept d.idx) := by
      have h1 := hr.store hl (s := KCP.pushed h payload) ⟨hge.mp hn, hlt⟩ hd.sn hd.payload hnew
      rw [hd.sn]
      exact h1.acked (if_pos (hge.mp hn)) h.ts
    obtain ⟨m, h1, h2, h3⟩ := RxRel.moveAll (F := F)
      (k := { k.ackPush h.sn h.ts with rcvBuf := k.rcvBuf.push (KCP.pushed h payload) }) hrel hl'
    exact ⟨⟨_, .head haccept h2, h1, .inr rfl, rfl⟩, fun _ => h3⟩

/-! ## `Recv` -/

theorem RxRel.take {F : Prop} (h : RxRel t v al x)
    (hl : LinkInv t x) {a q : List Segment} (hq : v.queue = a ++ q) :
    RxRel t { v with queue := q } al { x with taken := x.taken + a.length } ∧
      RxStep kcpBounds F t x { x with taken := x.taken + a.length } := by
  have hlen := h.queue_length hl
  rw [hq, List.length_append] at hlen
  have htak := hl.taken
  refine ⟨⟨h.nxt, h.wnd, ?_, ?_, h.heap, h.segs, h.stored, h.acks⟩, .take _ (by omega)⟩
  · show q.map content = (t.sent.take x.rcv).drop (x.taken + a.length)
    rw [← List.drop_drop, ← h.queue, hq, List.map_append, List.drop_left' (by simp)]
  · have hdrop := h.order.drop a.length
    rwa [hq, List.drop_left' rfl, u32_add] at hdrop

/-- What `Recv` does: a message is taken and the next numbers move up. -/
theorem RxRel.recv {k k' : KCP} {F : Prop} {room : Nat} {r : Int} {data : Bytes}
    (h : RxRel t k.rcv k.acklist x) (hl : LinkInv t x) (hr : k.recv room = .ok (k', r, data)) :
    (∃ x', RxRun kcpBounds F t x x' ∧ RxRel t k'.rcv k'.acklist x' ∧ x'.acks = x.acks ∧
      x'.taken = x.taken + (consumed k (.recv room)).length) ∧ (Settled k.rcv → Settled k'.rcv) := by
  rcases KCP.recv_spec hr with ⟨hn, he, -, -⟩ | ⟨hread, q, p, hm, rfl, -⟩
  · have hnone : consumed k (.recv room) = [] := by simp [consumed, hn]
    rw [he]
    exact ⟨⟨x, .refl, h, rfl, by simp [hnone]⟩, id⟩
  · have hsome : consumed k (.recv room) = KCP.messageSegs k.rcvQueue := by simp [consumed, hread]
    obtain ⟨hq, -⟩ := KCP.mergeFragments_spec hm
    obtain ⟨h1, h2⟩ := h.take (F := F) hl hq
    obtain ⟨m, h3, h4, h5⟩ := RxRel.moveAll (F := F) (k := { k with rcvQueue := q }) h1 (hl.rx h2)
    refine ⟨⟨_, .head h2 h4, h3, rfl, ?_⟩, fun _ => h5⟩
    rw [hsome]
    rfl

end KcpGo.L3
