import KcpGo.L3Protocol.Reassembly
import KcpGo.L3Protocol.Sending
import KcpGo.L4Session.Operations
import KcpGo.L4Session.Totality

/-!
# A session is a byte stream

Writing: `writeBuffersLocked` cuts its slices into pieces of at most `mss`
bytes and hands each to `Send`, whose result it ignores. `Wrote` says that
every piece is taken and what is queued then.

Reading: `readLocked` copies out of `recvbuf`, which `Recv` writes over when
its reader is used up. `Reader` is the reader with the array behind it.

* `byte_stream`: both, for every run of calls.
-/
namespace KcpGo.L4

open KcpGo.L1 KcpGo.L2 KcpGo.L3

namespace Session

variable {k k' : KCP} {s s' : Session}

/-! ## Writing -/

/-- Calls of `Send` one after the other, with what they return. -/
inductive SendsTo : KCP → List (Bytes × Int) → KCP → Prop where
  | nil (k : KCP) : SendsTo k [] k
  | cons {k e k' : KCP} {b : Bytes} {r : Int} {cs : List (Bytes × Int)} :
      k.send b = .ok (e, r) → SendsTo e cs k' → SendsTo k ((b, r) :: cs) k'

theorem SendsTo.append {a b c : KCP} {l m : List (Bytes × Int)} (h : SendsTo a l b) (h' : SendsTo b m c) :
    SendsTo a (l ++ m) c := by
  induction h with
  | nil => exact h'
  | cons hs _ ih => exact .cons hs (ih h')

/-- The pieces of `b`, each of them taken, and the queue with `b` behind it. -/
structure Queues (k : KCP) (b : Bytes) (cs : List (Bytes × Int)) (k' : KCP) : Prop where
  sends : SendsTo k cs k'
  pieces : (cs.map Prod.fst).flatten = b
  taken : ∀ c ∈ cs, c.1 ≠ [] → c.2 = 0
  grew : Grew k.stream k.mss.toNat k.sndQueue b k'.sndQueue
  rest : k' = { k with sndQueue := k'.sndQueue }

theorem Queues.nil (k : KCP) : Queues k [] [] k := ⟨.nil k, rfl, by simp, Grew.refl, rfl⟩

theorem Queues.append {k₁ k₂ : KCP} {b c : Bytes} {l m : List (Bytes × Int)} (h : Queues k b l k₁)
    (h' : Queues k₁ c m k₂) :
    Queues k (b ++ c) (l ++ m) k₂ := by
  refine ⟨h.sends.append h'.sends, ?_, fun x hx => ?_, ?_, ?_⟩
  · rw [List.map_append, List.flatten_append, h.pieces, h'.pieces]
  · rcases List.mem_append.mp hx with hx | hx
    · exact h.taken x hx
    · exact h'.taken x hx
  · have hg := h'.grew
    rw [h.rest] at hg
    exact h.grew.trans hg
  · have hr := h'.rest
    rw [h.rest] at hr
    exact hr

/-- `Send` takes a piece of at most `mss` bytes. -/
theorem queues_piece {e : KCP} {b : Bytes} {r : Int} (hmss : 0 < k.mss.toNat) (hb : b.length ≤ k.mss.toNat)
    (h : k.send b = .ok (e, r)) : Queues k b [(b, r)] e := by
  have hsends : SendsTo k [(b, r)] e := .cons h (.nil e)
  rcases send_cases h with ⟨rfl, rfl, rfl⟩ | ⟨-, -, hmany, -⟩ | ⟨-, hr, -, q, rfl, hg⟩
  · exact ⟨hsends, by simp, by simp, Grew.refl, rfl⟩
  · omega
  · exact ⟨hsends, by simp, by simp [hr], hg, rfl⟩

theorem sendPieces_queues {n : Nat} {b : Bytes} (hmss : 0 < k.mss.toNat) (hn : b.length < n)
    (h : sendPieces n k b = .ok k') : ∃ cs, Queues k b cs k' := by
  induction n generalizing k b with
  | zero => cases hn
  | succ n ih =>
    rw [sendPieces] at h
    split at h
    · rename_i hle
      obtain ⟨⟨k₁, r⟩, h1, h⟩ := Go.bind_ok h
      cases h
      exact ⟨_, queues_piece hmss hle h1⟩
    · rename_i hgt
      obtain ⟨⟨k₁, r⟩, h1, h⟩ := Go.bind_ok h
      have hfirst := queues_piece hmss (by rw [List.length_take]; omega) h1
      have hmss' : k₁.mss = k.mss := by rw [hfirst.rest]
      obtain ⟨cs, hcs⟩ := ih (by rw [hmss']; exact hmss) (by rw [List.length_drop, hmss']; omega) h
      have := hfirst.append hcs
      rw [hmss', List.take_append_drop] at this
      exact ⟨_, this⟩

theorem sendAll_queues {v : List Bytes} (hmss : 0 < k.mss.toNat)
    (h : v.foldlM (fun k b => sendPieces (b.length + 1) k b) k = .ok k') : ∃ cs, Queues k v.flatten cs k' := by
  induction v generalizing k with
  | nil =>
    cases h
    exact ⟨[], Queues.nil _⟩
  | cons b v ih =>
    rw [List.foldlM_cons] at h
    obtain ⟨k₁, h1, h⟩ := Go.bind_ok h
    obtain ⟨cs, hcs⟩ := sendPieces_queues hmss (Nat.lt_succ_self _) h1
    have hmss' : k₁.mss = k.mss := by rw [hcs.rest]
    obtain ⟨cs', hcs'⟩ := ih (by rw [hmss']; exact hmss) h
    exact ⟨_, hcs.append hcs'⟩

theorem numberFrom_bytes (conv sn : UInt32) (q : List Segment) :
    (numberFrom conv sn q).map Segment.bytes = q.map Segment.bytes := by
  induction q generalizing sn with
  | nil => rfl
  | cons s q ih =>
    rw [numberFrom, List.map_cons, List.map_cons, ih]
    rfl

/-- A flush moves segments from the queue to the buffer and keeps their bytes. -/
theorem flush_queued {ft : FlushType} {clk : Clock} {m : Nat} {out : List Bytes} (h : FlushSpec k ft clk m k' out) :
    (k'.sndBuf ++ k'.sndQueue).map Segment.bytes = (k.sndBuf ++ k.sndQueue).map Segment.bytes := by
  have hcore : ∀ l : List Segment, (l.map Segment.core).map Segment.bytes = l.map Segment.bytes := by
    intro l
    rw [List.map_map]
    rfl
  have hq : k'.sndQueue = k.sndQueue.drop m := congrArg Snd.queue h.snd
  have hb : k'.sndBuf.map Segment.core = k.sndBuf.map Segment.core ++
      (numberFrom k.conv k.sndNxt (k.sndQueue.take m)).map Segment.core := congrArg Snd.buf h.snd
  have hbytes := congrArg (List.map Segment.bytes) hb
  rw [List.map_append, hcore, hcore, hcore, numberFrom_bytes] at hbytes
  rw [List.map_append, hbytes, hq, List.append_assoc, ← List.map_append, List.take_append_drop, List.map_append]

theorem output_kcp {p : Bytes} (h : s.output p = .ok s') : s'.kcp = s.kcp := by
  unfold output push at h
  repeat' split at h
  all_goals cases h
  all_goals rfl

theorem outputs_kcp {out : List Bytes} (h : out.foldlM output s = .ok s') : s'.kcp = s.kcp := by
  induction out generalizing s with
  | nil =>
    cases h
    rfl
  | cons p out ih =>
    rw [List.foldlM_cons] at h
    obtain ⟨s₁, h1, h2⟩ := Go.bind_ok h
    exact (ih h2).trans (output_kcp h1)

/-- What a call of `writeBuffersLocked` that is not refused queues: before the
flush the queue has the bytes of the slices behind it, and the flush keeps
what is queued. -/
def Wrote (k : KCP) (b : Bytes) (k' : KCP) : Prop :=
  ∃ k₁ cs, Queues k b cs k₁ ∧ (k'.sndBuf ++ k'.sndQueue).map Segment.bytes = (k.sndBuf ++ k₁.sndQueue).map Segment.bytes

theorem Wrote.bytes {b : Bytes} (h : Wrote k b k') :
    (k'.sndBuf ++ k'.sndQueue).flatMap Segment.bytes = (k.sndBuf ++ k.sndQueue).flatMap Segment.bytes ++ b := by
  obtain ⟨k₁, cs, hq, he⟩ := h
  rw [List.flatMap_def, he, ← List.flatMap_def, List.flatMap_append, hq.grew.bytes,
    List.flatMap_append, List.append_assoc]

theorem writeBuffersLocked_wrote {v : List Bytes} {clk : Clock} {r : Option Nat} (hmss : 0 < s.kcp.mss.toNat)
    (h : s.writeBuffersLocked v clk = .ok (s', r)) :
    (r = none ∧ s' = s) ∨ (r = some v.flatten.length ∧ Wrote s.kcp v.flatten s'.kcp) := by
  unfold writeBuffersLocked at h
  split at h
  · cases h
    exact .inl ⟨rfl, rfl⟩
  right
  obtain ⟨k, h1, h⟩ := Go.bind_ok h
  obtain ⟨cs, hq⟩ := sendAll_queues hmss h1
  have hbuf : k.sndBuf = s.kcp.sndBuf := by rw [hq.rest]
  dsimp only at h
  split at h
  · obtain ⟨s₁, h2, h⟩ := Go.bind_ok h
    cases h
    obtain ⟨⟨k₂, out, nx⟩, hf, hout⟩ := Go.bind_ok h2
    obtain ⟨m, hm⟩ := KCP.flush_spec hf
    refine ⟨rfl, k, cs, hq, ?_⟩
    rw [outputs_kcp hout, flush_queued hm, hbuf]
  · cases h
    exact ⟨rfl, k, cs, hq, by rw [hbuf]⟩

/-! ## The piece size is never 0 -/

/-- The MTU of the control block modulo 2^64. -/
theorem mtu_bmod (s : Session) (mtu : Int64) (hsmall : s.headerSize + s.block.overhead < 2 ^ 31) :
    (min 1472 mtu - Int64.ofNat s.headerSize - Int64.ofNat s.block.overhead).toInt =
      (min 1472 mtu.toInt - s.headerSize - s.block.overhead).bmod (2 ^ 64) := by
  have h1472 : (1472 : Int64).toInt = 1472 := rfl
  rw [Int64.toInt_sub, Int64.toInt_sub, toInt_min, h1472, Int64.toInt_ofNat_of_lt (by omega),
    Int64.toInt_ofNat_of_lt (by omega)]
  simp

/-- Also when the subtractions wrap, the MTU is not 24 modulo 2^32. -/
theorem wrapped_mss_pos (s : Session) (mtu : Int64) (hsmall : s.headerSize + s.block.overhead < 2 ^ 31)
    (h24 : ((IKCP_OVERHEAD : Nat) : Int) <
      (min 1472 mtu - Int64.ofNat s.headerSize - Int64.ofNat s.block.overhead).toInt) :
    0 < (UInt32.ofInt (min 1472 mtu - Int64.ofNat s.headerSize - Int64.ofNat s.block.overhead).toInt -
      UInt32.ofNat IKCP_OVERHEAD).toNat := by
  have hlow := mtu.le_toInt
  rw [mtu_bmod s mtu hsmall] at h24 ⊢
  have hle : min 1472 mtu.toInt ≤ 1472 := Int.min_le_left _ _
  have hge : -2 ^ 63 ≤ min 1472 mtu.toInt := by omega
  generalize min 1472 mtu.toInt = m at *
  have hover : (UInt32.ofNat IKCP_OVERHEAD).toNat = 24 := rfl
  have hover' : ((IKCP_OVERHEAD : Nat) : Int) = 24 := rfl
  rw [UInt32.toNat_sub, hover, Serial.toNat_ofInt]
  rw [hover'] at h24
  by_cases hfits : -2 ^ 63 ≤ m - s.headerSize - s.block.overhead
  · rw [Int.bmod_eq_of_le (by omega) (by omega)] at h24 ⊢
    omega
  · have hwrap : (m - s.headerSize - s.block.overhead).bmod (2 ^ 64) =
        m - s.headerSize - s.block.overhead + 2 ^ 64 := by
      rw [← Int.add_bmod_right]
      exact Int.bmod_eq_of_le (by omega) (by omega)
    rw [hwrap] at h24 ⊢
    omega

theorem setMtu_mss_pos {mtu : Int64} {b : Bool} (hsmall : s.headerSize + s.block.overhead < 2 ^ 31)
    (hmss : 0 < s.kcp.mss.toNat) (h : s.setMtu mtu = .ok (s', b)) : 0 < s'.kcp.mss.toNat := by
  obtain ⟨⟨k, r⟩, h1, h⟩ := Go.bind_ok h
  cases h
  unfold KCP.setMtu at h1
  split at h1
  · cases h1
    exact hmss
  · rename_i h24
    dsimp only at h1
    split at h1
    · cases h1
    · cases h1
      exact wrapped_mss_pos s mtu hsmall (Int.not_le.mp h24)

theorem run_mss {ops : List Op} (h : opLts.Run k ops k') (hops : ∀ op ∈ ops, ∀ m, op ≠ .setMtu m) :
    k'.mss = k.mss := by
  induction h with
  | nil => rfl
  | cons hstep _ ih =>
    obtain ⟨o, ho⟩ := hstep
    obtain ⟨e, hb, hcfg⟩ := step_cfg ho
    rw [ih fun op hop => hops op (List.mem_cons_of_mem _ hop), (cfg_room hcfg).2.1]
    exact (hb.sizes (hops _ List.mem_cons_self)).2.1

/-- What a read leaves alone. -/
theorem readLocked_rest {n : Nat} {d : Option Bytes} (h : s.readLocked n = .ok (s', d)) :
    s'.kcp.mss = s.kcp.mss ∧ s'.headerSize = s.headerSize ∧ s'.block = s.block := by
  unfold readLocked at h
  split at h
  · cases h
    exact ⟨rfl, rfl, rfl⟩
  split at h
  · cases h
    exact ⟨rfl, rfl, rfl⟩
  split at h <;>
  · obtain ⟨⟨k, r, w⟩, h1, h⟩ := Go.bind_ok h
    cases h
    exact ⟨congrArg Cfg.mss (KCP.recv_rest h1).2.1, rfl, rfl⟩

/-- The piece size is positive and the headers are small. -/
def Cuts (s : Session) : Prop := s.headerSize + s.block.overhead < 2 ^ 31 ∧ 0 < s.kcp.mss.toNat

theorem step_cuts {lib : Lib} {call : Call} {o : Shown} (h : s.Cuts) (hs : s.step lib call = .ok (s', o)) :
    s'.Cuts := by
  by_cases hread : ∃ n, call = .read n
  · obtain ⟨n, rfl⟩ := hread
    obtain ⟨⟨s₁, d⟩, h1, hs⟩ := Go.bind_ok hs
    cases hs
    obtain ⟨hm, hh, hb⟩ := readLocked_rest h1
    unfold Cuts
    rw [hm, hh, hb]
    exact h
  have hop := step_operates (fun n heq => hread ⟨n, heq⟩) hs
  unfold Cuts
  rw [hop.headerSize, hop.block]
  refine ⟨h.1, ?_⟩
  by_cases hmtu : ∃ mtu, call = .setMtu mtu
  · obtain ⟨mtu, rfl⟩ := hmtu
    obtain ⟨⟨s₁, b⟩, h1, hs⟩ := Go.bind_ok hs
    cases hs
    exact setMtu_mss_pos h.1 h.2 h1
  · obtain ⟨ops, hrun, hops⟩ := hop.run
    rw [run_mss hrun fun op hm m he => ?_]
    · exact h.2
    · have := hops op hm
      subst he
      cases call <;> simp_all [Call.ops, Inner]

/-! ## Reading -/

/-- `s.input` over `s.recvbuf`: the array behind the slice, the length of the
slice the reader was given last, and its position.
mirrors src/sess.go:133-135 -/
structure Reader where
  array : Bytes
  len : Nat
  i : Nat

namespace Reader

def unread (r : Reader) : Bytes := (r.array.take r.len).drop r.i

/-- `s.input.Read(b)` with `n` bytes of room. -/
def read (r : Reader) (n : Nat) : Reader × Bytes :=
  let d := r.unread.take n
  ({ r with i := r.i + d.length }, d)

/-- `recvbuf` before anything is read. -/
def initial : Reader := ⟨List.replicate maxPacketSize 0, 0, 0⟩

theorem read_data (r : Reader) (n : Nat) : (r.read n).2 = r.unread.take n := rfl

theorem read_array (r : Reader) (n : Nat) : (r.read n).1.array = r.array := rfl

theorem read_unread (r : Reader) (n : Nat) : (r.read n).1.unread = r.unread.drop n := by
  have hdrop : (r.read n).1.unread = r.unread.drop (r.unread.take n).length := by
    show (r.array.take r.len).drop (r.i + (r.unread.take n).length) = _
    rw [← List.drop_drop]
    rfl
  rw [hdrop, List.length_take]
  rcases Nat.le_total n r.unread.length with hle | hle
  · rw [Nat.min_eq_left hle]
  · rw [Nat.min_eq_right hle, List.drop_length, List.drop_of_length_le hle]

end Reader

/-- `copy(dst, src)` of a `src` that fits. -/
def copyTo (dst src : Bytes) : Bytes := src ++ dst.drop src.length

theorem copyTo_take (dst src : Bytes) : (copyTo dst src).take src.length = src := List.take_left' rfl

theorem copyTo_length {dst src : Bytes} (h : src.length ≤ dst.length) : (copyTo dst src).length = dst.length := by
  rw [copyTo, List.length_append, List.length_drop]
  omega

/-- `readLocked` into the destination `b`, with the array that `Recv` writes
over: the bytes of `b` up to the count it returns.
mirrors src/sess.go:296-333 (`readLocked`) -/
def readBuf (k : KCP) (r : Reader) (b : Bytes) : Go (KCP × Reader × Option Bytes) :=
  if r.unread ≠ [] then
    let (r, d) := r.read b.length
    .ok (k, r, some d)
  else if k.peekSize ≤ 0 then .ok (k, r, none)
  else
    let size := k.peekSize.toNat
    if size ≤ b.length then do
      let (k, _, written) ← k.recv b.length
      .ok (k, r, some ((copyTo b written).take size))
    else do
      let array := if r.array.length < size then List.replicate size 0 else r.array
      let (k, _, written) ← k.recv size
      let (r, d) := Reader.read ⟨copyTo array written, size, 0⟩ b.length
      .ok (k, r, some d)

theorem recv_length {e : KCP} {room : Nat} {r : Int} {d : Bytes} (h : k.recv room = .ok (e, r, d))
    (hr : k.readable room) :
    d.length = k.peekSize.toNat := by
  rcases KCP.recv_spec h with ⟨hn, -⟩ | ⟨-, q, p, hm, -⟩
  · exact absurd hr hn
  · have hsize := peekSize_eq hr.1
    rw [(KCP.mergeFragments_spec hm).2]
    omega

/-- What the two ways of reading a message do. -/
inductive ReadSpec (k : KCP) (r : Reader) (b : Bytes) : KCP → Reader → Option Bytes → Prop where
  | left (hr : r.unread ≠ []) : ReadSpec k r b k (r.read b.length).1 (some (r.read b.length).2)
  | none (hr : r.unread = []) (hk : k.peekSize ≤ 0) : ReadSpec k r b k r none
  | direct {k' : KCP} {ret : Int} {d : Bytes} (hr : r.unread = []) (hk : 0 < k.peekSize) (hb : k.peekSize ≤ b.length)
      (h : k.recv b.length = .ok (k', ret, d)) : ReadSpec k r b k' r (some d)
  | buffered {k' : KCP} {ret : Int} {d : Bytes} {r' : Reader} (hr : r.unread = []) (hk : 0 < k.peekSize)
      (hb : (b.length : Int) < k.peekSize) (h : k.recv k.peekSize.toNat = .ok (k', ret, d))
        (hr' : r'.unread = d.drop b.length)
      (hcap : r'.array.length = max r.array.length k.peekSize.toNat) : ReadSpec k r b k' r' (some (d.take b.length))

theorem readBuf_spec {r r' : Reader} {b : Bytes} {d : Option Bytes} (h : readBuf k r b = .ok (k', r', d)) :
    ReadSpec k r b k' r' d := by
  unfold readBuf at h
  split at h
  · rename_i hr
    cases h
    exact .left hr
  rename_i hr
  replace hr : r.unread = [] := not_not.mp hr
  split at h
  · rename_i hk
    cases h
    exact .none hr hk
  rename_i hk
  replace hk : 0 < k.peekSize := Int.not_le.mp hk
  dsimp only at h
  split at h
  · rename_i hb
    have hfits : k.peekSize ≤ b.length := by omega
    obtain ⟨⟨k₁, ret, written⟩, h1, h⟩ := Go.bind_ok h
    cases h
    rw [← recv_length h1 ⟨Int.le_of_lt hk, hfits⟩, copyTo_take]
    exact .direct hr hk hfits h1
  · rename_i hb
    obtain ⟨⟨k₁, ret, written⟩, h1, h⟩ := Go.bind_ok h
    cases h
    have hlen := recv_length h1 ⟨Int.le_of_lt hk, by omega⟩
    generalize harr : (if r.array.length < k.peekSize.toNat then List.replicate k.peekSize.toNat 0 else r.array) = array
    have hcap : array.length = max r.array.length k.peekSize.toNat := by
      rw [← harr]
      split
      · rw [List.length_replicate]
        omega
      · omega
    have hfit : written.length ≤ array.length := by
      rw [hcap, hlen]
      exact Nat.le_max_right _ _
    -- the reader starts over on what `Recv` wrote
    have hunread : Reader.unread ⟨copyTo array written, k.peekSize.toNat, 0⟩ = written := by
      rw [Reader.unread, List.drop_zero, ← hlen, copyTo_take]
    rw [Reader.read_data, hunread]
    refine .buffered hr hk (by omega) h1 ?_ ?_
    · rw [Reader.read_unread, hunread]
    · rw [Reader.read_array, copyTo_length hfit, hcap]

/-- The reader of the session is the reader over `recvbuf`. -/
theorem readBuf_readLocked {r r' : Reader} {b : Bytes} {d : Option Bytes} (hin : s.input = r.unread)
    (hcap : s.recvCap = r.array.length) (h : readBuf s.kcp r b = .ok (k', r', d)) :
    s.readLocked b.length = .ok ({ s with kcp := k', input := r'.unread, recvCap := r'.array.length }, d) := by
  unfold readLocked
  cases readBuf_spec h with
  | left hr =>
    rw [if_pos (by rw [hin]; exact hr), Reader.read_unread, Reader.read_data, Reader.read_array, ← hin, ← hcap]
  | none hr hk =>
    rw [if_neg (by rw [hin]; exact not_not.mpr hr), if_pos hk, ← hin, ← hcap]
  | direct hr hk hb h1 =>
    rw [if_neg (by rw [hin]; exact not_not.mpr hr), if_neg (Int.not_le.mpr hk), if_pos hb, h1, ← hin, ← hcap]
    rfl
  | buffered hr hk hb h1 hr' hcap' =>
    rw [if_neg (by rw [hin]; exact not_not.mpr hr), if_neg (Int.not_le.mpr hk), if_neg (Int.not_le.mpr hb)]
    dsimp only
    rw [h1, hr', hcap', ← hcap]
    rfl

/-! ## The two sides of a run -/

/-- A session with its reader, the segments its control block has kept, and
the bytes it has returned. -/
structure Feed where
  sess : Session
  reader : Reader
  kept : List Segment
  returned : Bytes

/-- A call of `readLocked` into `b`, of `writeBuffersLocked`, or any other. -/
inductive FeedCall where
  | read (b : Bytes)
  | write (v : List Bytes) (clk : Clock)
  | call (c : Call)

/-- What the control block holds after a call and did not hold before. -/
def newlyKept (k k' : KCP) : List Segment := k'.rcv.held.diff k.rcv.held

/-- After a call that returns no data. -/
def Feed.after (f : Feed) (s : Session) : Feed := ⟨s, f.reader, f.kept ++ newlyKept f.sess.kcp s.kcp, f.returned⟩

def Feed.step (lib : Lib) (f : Feed) : FeedCall → Go Feed
  | .read b => do
    let (k, r, d) ← readBuf f.sess.kcp f.reader b
    .ok ⟨{ f.sess with kcp := k, input := r.unread, recvCap := r.array.length }, r, f.kept, f.returned ++ d.getD []⟩
  | .write v clk => do
    let (s, _) ← f.sess.writeBuffersLocked v clk
    .ok (f.after s)
  | .call c => do
    let (s, _) ← f.sess.step lib c
    .ok (f.after s)

def FeedCall.Fits : FeedCall → Prop
  | .call c => c.Fits ∧ ∀ n, c ≠ .read n
  | _ => True

/-- The runs of a session, with every `SetMtu`, and their history. -/
def feedLts (lib : Lib) (conv : UInt32) (ds ps : Nat) (block : Block) : LTS Feed FeedCall where
  init f := Session.new lib conv ds ps block = .ok f.sess ∧ f.reader = .initial ∧ f.kept = [] ∧ f.returned = []
  step f l f' := l.Fits ∧ f.step lib l = .ok f'

/-- The segments read so far are what was returned and what is in the reader. -/
structure Feed.Inv (f : Feed) : Prop where
  input : f.sess.input = f.reader.unread
  recvCap : f.sess.recvCap = f.reader.array.length
  tracks : ∃ taken, Tracks taken f.kept f.sess.kcp.rcv ∧ f.returned ++ f.reader.unread = taken.flatMap Segment.bytes

theorem run_fed {ops : List Op} (h : opLts.Run k ops k') (hops : ∀ op ∈ ops, ∀ room, op ≠ .recv room)
    (hi : SegHeap.Inv k.rcvNxt heapHalf k.rcvBuf) : ∃ new, k.rcv.Fed k'.rcv new := by
  induction h with
  | nil => exact ⟨[], Rcv.Fed.refl hi⟩
  | cons hstep _ ih =>
    obtain ⟨o, ho⟩ := hstep
    obtain ⟨m, hm⟩ := fed_step ho (hops _ List.mem_cons_self) hi
    obtain ⟨n, hn⟩ := ih (fun op hop => hops op (List.mem_cons_of_mem _ hop)) hm.heap
    exact ⟨m ++ n, hm.trans hn⟩

/-- No call but `Read` uses `Recv`. -/
theorem ops_noRecv {call : Call} {op : Op} (h : call.ops s op) (room : Nat) : op ≠ .recv room := by
  rintro rfl
  cases call <;> simp_all [Call.ops, Inner]

theorem feed_read {f : Feed} (h : f.Inv) {b : Bytes} {r : Reader} {d : Option Bytes}
    (hs : readBuf f.sess.kcp f.reader b = .ok (k, r, d)) :
    Feed.Inv ⟨{ f.sess with kcp := k, input := r.unread, recvCap := r.array.length }, r, f.kept,
      f.returned ++ d.getD []⟩ := by
  obtain ⟨taken, ht, hret⟩ := h.tracks
  refine ⟨rfl, rfl, ?_⟩
  cases readBuf_spec hs with
  | left hr =>
    refine ⟨taken, ht, ?_⟩
    dsimp only
    rw [Reader.read_unread, Reader.read_data, Option.getD_some, List.append_assoc, List.take_append_drop]
    exact hret
  | none hr hk =>
    refine ⟨taken, ht, ?_⟩
    dsimp only
    rw [Option.getD_none, List.append_nil]
    exact hret
  | @direct k' ret d hr hk hb h1 =>
    obtain ⟨q, hq, hd, hfed⟩ := recv_takes h1 ⟨Int.le_of_lt hk, hb⟩ ht.heap
    refine ⟨_, (ht.take hq).moved hfed, ?_⟩
    dsimp only
    rw [hr, List.append_nil] at hret ⊢
    rw [Option.getD_some, List.flatMap_append, ← hret, hd]
  | @buffered k' ret d r' hr hk hb h1 hr' hcap =>
    obtain ⟨q, hq, hd, hfed⟩ := recv_takes h1 ⟨Int.le_of_lt hk, by omega⟩ ht.heap
    refine ⟨_, (ht.take hq).moved hfed, ?_⟩
    dsimp only
    rw [hr, List.append_nil] at hret
    rw [hr', Option.getD_some, List.append_assoc, List.take_append_drop, List.flatMap_append, ← hret, hd]

theorem feed_operates {P : Op → Prop} {f : Feed} (h : f.Inv) (hop : Operates P f.sess s)
    (hP : ∀ op, P op → ∀ room, op ≠ .recv room) : (f.after s).Inv := by
  obtain ⟨ops, hrun, hops⟩ := hop.run
  obtain ⟨taken, ht, hsplit⟩ := h.tracks
  obtain ⟨new, hfed⟩ := run_fed hrun (fun op hm => hP op (hops op hm)) ht.heap
  exact ⟨hop.input.trans h.input, hop.recvCap.trans h.recvCap, taken, ht.fed hfed, hsplit⟩

theorem inner_noRecv {op : Op} (h : Inner op) (room : Nat) : op ≠ .recv room := by
  rintro rfl
  cases h

theorem feed_step {lib : Lib} {f f' : Feed} {l : FeedCall} (h : f.Inv ∧ f.sess.Cuts) (hl : l.Fits)
    (hs : f.step lib l = .ok f') :
    f'.Inv ∧ f'.sess.Cuts := by
  cases l with
  | read b =>
    obtain ⟨⟨k, r, d⟩, hread, hs⟩ := Go.bind_ok hs
    cases hs
    refine ⟨feed_read h.1 hread, ?_⟩
    have hrest := readLocked_rest (readBuf_readLocked h.1.input h.1.recvCap hread)
    unfold Cuts
    rw [hrest.1, hrest.2.1, hrest.2.2]
    exact h.2
  | write v clk =>
    obtain ⟨⟨s, r⟩, hw, hs⟩ := Go.bind_ok hs
    cases hs
    have hop := writeBuffersLocked_operates hw
    refine ⟨feed_operates h.1 hop fun op => inner_noRecv, ?_⟩
    show s.headerSize + s.block.overhead < 2 ^ 31 ∧ 0 < s.kcp.mss.toNat
    obtain ⟨ops, hrun, hops⟩ := hop.run
    rw [hop.headerSize, hop.block, run_mss hrun fun op hm m he => ?_]
    · exact h.2
    · have := hops op hm
      rw [he] at this
      cases this
  | call c =>
    obtain ⟨⟨s, o⟩, hc, hs⟩ := Go.bind_ok hs
    cases hs
    exact ⟨feed_operates h.1 (step_operates hl.2 hc) fun op => ops_noRecv, step_cuts h.2 hc⟩

theorem new_shape {lib : Lib} {conv : UInt32} {ds ps : Nat} {block : Block}
    (h : Session.new lib conv ds ps block = .ok s) : s.Cuts ∧ s.input = [] ∧ s.recvCap = maxPacketSize ∧
      s.kcp.rcv = (newKCP conv).rcv := by
  have h24 := new_ok_iff.mp ⟨s, h⟩
  obtain ⟨k, r, heq, hk, hr⟩ := new_eq lib conv ds ps block
  rw [heq, if_pos (hr.mpr h24)] at h
  cases h
  have hfirst : firstMtu lib ds ps block = 1400 - (blank lib conv ds ps block).headerSize - block.overhead := rfl
  have hover : ((IKCP_OVERHEAD : Nat) : Int) = 24 := rfl
  have hmax : ((maxPacketSize : Nat) : Int) = 1472 := rfl
  refine ⟨⟨?_, (sendable_setMtu (Nat.le_refl _) conv h24 (by omega) hk).mss⟩, rfl, rfl, (KCP.setMtu_rest hk).1⟩
  show (blank lib conv ds ps block).headerSize + block.overhead < 2 ^ 31
  omega

theorem feed_inductive (lib : Lib) (conv : UInt32) (ds ps : Nat) (block : Block) :
    (feedLts lib conv ds ps block).Inductive fun f => f.Inv ∧ f.sess.Cuts where
  init := by
    rintro ⟨s, r, kept, ret⟩ ⟨hs, hr, hk, hret⟩
    dsimp only at hs hr hk hret
    subst hr hk hret
    obtain ⟨hcuts, hin, hcap, hrcv⟩ := new_shape hs
    have hempty : Reader.initial.unread = [] := by simp [Reader.initial, Reader.unread]
    refine ⟨⟨hin.trans hempty.symm, ?_, [], ?_, ?_⟩, hcuts⟩
    · simpa [Reader.initial] using hcap
    · rw [hrcv]
      exact Tracks.initial conv
    · rw [List.nil_append]
      exact hempty
  step := fun f l f' h hs => feed_step h hs.1 hs.2

theorem readBuf_total (k : KCP) (r : Reader) (b : Bytes) : ∃ k' r' d, readBuf k r b = .ok (k', r', d) := by
  unfold readBuf
  split
  · exact ⟨_, _, _, rfl⟩
  split
  · exact ⟨_, _, _, rfl⟩
  dsimp only
  split
  · obtain ⟨x, hx⟩ := k.recv_ok b.length
    rw [hx]
    exact ⟨_, _, _, rfl⟩
  · obtain ⟨x, hx⟩ := k.recv_ok k.peekSize.toNat
    rw [hx]
    exact ⟨_, _, _, rfl⟩

/-- `readLocked` returns, and the reader over `recvbuf` is the session's. -/
theorem readBuf_ok {r : Reader} (hin : s.input = r.unread) (hcap : s.recvCap = r.array.length) (b : Bytes) :
    ∃ k r' d, readBuf s.kcp r b = .ok (k, r', d) ∧
      s.readLocked b.length = .ok ({ s with kcp := k, input := r'.unread, recvCap := r'.array.length }, d) := by
  obtain ⟨k, r', d, h⟩ := readBuf_total s.kcp r b
  exact ⟨k, r', d, h, readBuf_readLocked hin hcap h⟩

/-- No `SetMtu` of the run underflows. -/
def FeedCall.MtuFits (f : Feed) : FeedCall → Prop
  | .call c => c.MtuFits f.sess
  | _ => True

/-- In runs without an underflow of the MTU the sizes fit. -/
theorem feed_sizes {lib : Lib} {conv : UInt32} {ds ps : Nat} {block : Block} (hlib : Documented lib)
    (hb : block.Lawful) {f : Feed}
    (hr : ((feedLts lib conv ds ps block).restrict fun f l _ => l.MtuFits f).Reachable f) : Inv lib f.sess := by
  have hind : ((feedLts lib conv ds ps block).restrict fun f l _ => l.MtuFits f).Inductive fun f =>
      Inv lib f.sess ∧ (f.Inv ∧ f.sess.Cuts) := by
    refine ⟨fun f hf => ⟨(new_inv hlib.sized hb hf.1).1, (feed_inductive lib conv ds ps block).init f hf⟩, ?_⟩
    intro f l f' h hs
    obtain ⟨⟨hl, hstep⟩, hm⟩ := hs
    refine ⟨?_, feed_step h.2 hl hstep⟩
    cases l with
    | read b =>
      obtain ⟨⟨k, r, d⟩, hread, hs⟩ := Go.bind_ok hstep
      cases hs
      have hlocked := readBuf_readLocked h.2.1.input h.2.1.recvCap hread
      obtain ⟨s', d', hs', hinv⟩ := readLocked_ok h.1 b.length
      rw [hlocked] at hs'
      cases hs'
      exact hinv
    | write v clk =>
      obtain ⟨⟨s, r⟩, hw, hs⟩ := Go.bind_ok hstep
      cases hs
      obtain ⟨s', r', hs', hinv⟩ := writeBuffersLocked_ok h.1 v clk
      rw [hw] at hs'
      cases hs'
      exact hinv
    | call c =>
      obtain ⟨⟨s, o⟩, hc, hs⟩ := Go.bind_ok hstep
      cases hs
      obtain ⟨s', o', hs', hinv, -⟩ := step_ok hlib h.1 (admissible_of_fits hl.1 hm)
      rw [hc] at hs'
      cases hs'
      exact hinv
  exact (hind.reachable f hr).1

/-- **A session is a byte stream.** After any run: a write that is not refused
queues its bytes behind everything queued before, through calls of `Send` that
take every piece, and returns their number; one that is refused changes
nothing. The bytes read so far, those in the reader, in `rcv_queue` and in the
part of `rcv_buf` that continues it are the bytes received in order. -/
theorem byte_stream {lib : Lib} {conv : UInt32} {ds ps : Nat} {block : Block} {f : Feed}
    (hr : (feedLts lib conv ds ps block).Reachable f) :
    (∀ v clk s' r, f.sess.writeBuffersLocked v clk = .ok (s', r) → (r = none ∧ s' = f.sess) ∨
      (r = some v.flatten.length ∧ Wrote f.sess.kcp v.flatten s'.kcp ∧
        (s'.kcp.sndBuf ++ s'.kcp.sndQueue).flatMap Segment.bytes =
          (f.sess.kcp.sndBuf ++ f.sess.kcp.sndQueue).flatMap Segment.bytes ++ v.flatten)) ∧
    (Documented lib → block.Lawful → ((feedLts lib conv ds ps block).restrict fun f l _ => l.MtuFits f).Reachable f →
      ∀ v clk, ∃ s' r, f.sess.writeBuffersLocked v clk = .ok (s', r)) ∧
    f.returned ++ f.reader.unread ++ f.sess.kcp.rcvQueue.flatMap Segment.bytes ++
      f.sess.kcp.rcv.ready.flatMap Segment.bytes =
      (InOrder.inOrder Segment.sn f.kept).flatMap Segment.bytes ∧
    ∀ b, ∃ k r d, readBuf f.sess.kcp f.reader b = .ok (k, r, d) ∧
      f.sess.readLocked b.length = .ok ({ f.sess with kcp := k, input := r.unread, recvCap := r.array.length }, d) := by
  obtain ⟨hinv, hcuts⟩ := (feed_inductive lib conv ds ps block).reachable f hr
  refine ⟨fun v clk s' r h => ?_, fun hlib hb hfits v clk => ?_, ?_, readBuf_ok hinv.input hinv.recvCap⟩
  · rcases writeBuffersLocked_wrote hcuts.2 h with hnone | ⟨hsome, hw⟩
    · exact .inl hnone
    · exact .inr ⟨hsome, hw, hw.bytes⟩
  · obtain ⟨s', r, hw, -⟩ := writeBuffersLocked_ok (feed_sizes hlib hb hfits) v clk
    exact ⟨s', r, hw⟩
  · obtain ⟨taken, ht, hsplit⟩ := hinv.tracks
    rw [ht.inOrder, hsplit, List.flatMap_append, List.flatMap_append]
    rfl

/-- The calls one after the other. -/
def Feed.calls (lib : Lib) : Feed → List FeedCall → Go Feed
  | f, [] => .ok f
  | f, l :: ls => do
    let f ← f.step lib l
    calls lib f ls

theorem run_of_feed {lib : Lib} {conv : UInt32} {ds ps : Nat} {block : Block} {ls : List FeedCall} :
    ∀ {f f' : Feed}, (∀ l ∈ ls, l.Fits) → Feed.calls lib f ls = .ok f' →
      (feedLts lib conv ds ps block).Run f ls f' := by
  induction ls with
  | nil =>
    intro f f' _ h
    cases h
    exact .nil _
  | cons l ls ih =>
    intro f f' hfits h
    obtain ⟨f₁, h1, h⟩ := Go.bind_ok h
    exact .cons ⟨hfits l List.mem_cons_self, h1⟩ (ih (fun x hx => hfits x (List.mem_cons_of_mem _ hx)) h)

/-- A session without a cipher and FEC. -/
def feedStart : Go Feed := do
  let s ← Session.new xors 7 0 0 .nil
  .ok ⟨s, .initial, [], []⟩

theorem reachable_of_feed {ls : List FeedCall} {f : Feed} (hfits : ∀ l ∈ ls, l.Fits)
    (h : (feedStart >>= fun f => f.calls xors ls) = .ok f) : (feedLts xors 7 0 0 .nil).Reachable f := by
  obtain ⟨f₀, h0, hcalls⟩ := Go.bind_ok h
  obtain ⟨s, hs, h0⟩ := Go.bind_ok h0
  cases h0
  exact ⟨_, ls, ⟨hs, rfl, rfl, rfl⟩, run_of_feed hfits hcalls⟩

/-- Three bytes arrive, and two are read. -/
def twoOfThree : List FeedCall :=
  [.call (.packetInput (Segment.wire { conv := 7, cmd := IKCP_CMD_PUSH, data := some [65, 66, 67] }) fun _ _ => 0),
    .read [0, 0]]

theorem byte_stream_small_read : ∃ f, (feedLts xors 7 0 0 .nil).Reachable f ∧ f.returned = [65, 66] ∧
    f.reader.unread = [67] ∧
    f.returned ++ f.reader.unread ++ f.sess.kcp.rcvQueue.flatMap Segment.bytes ++
      f.sess.kcp.rcv.ready.flatMap Segment.bytes =
      (InOrder.inOrder Segment.sn f.kept).flatMap Segment.bytes := by
  obtain ⟨f, hf, htest⟩ : ∃ f, (feedStart >>= fun f => f.calls xors twoOfThree) = .ok f ∧
      (decide (f.returned = [65, 66]) && decide (f.reader.unread = [67])) = true := Go.of_test (by decide +kernel)
  simp only [Bool.and_eq_true, decide_eq_true_eq] at htest
  have hfits : ∀ l ∈ twoOfThree, l.Fits := by
    simp only [twoOfThree, List.mem_cons, List.not_mem_nil, or_false, forall_eq_or_imp, forall_eq,
      FeedCall.Fits, and_true]
    refine ⟨?_, by simp⟩
    show (Segment.wire _).length ≤ maxPacketSize
    rw [Segment.wire_length]
    decide
  have hr := reachable_of_feed hfits hf
  obtain ⟨-, -, hstream, -⟩ := byte_stream hr
  exact ⟨f, hr, htest.1, htest.2, hstream⟩

/-- Stream mode with delayed writes, and one byte written. -/
def oneWritten : List FeedCall :=
  [.call (.setStreamMode true), .call (.setWriteDelay true), .write [[1]] fun _ => 0]

/-- **No new segment.** In stream mode a write fills up the last queued
segment. -/
theorem write_coalesces : ∃ f s', (feedLts xors 7 0 0 .nil).Reachable f ∧
    f.sess.writeBuffersLocked [[2]] (fun _ => 0) = .ok (s', some 1) ∧ f.sess.kcp.sndBuf = [] ∧ s'.kcp.sndBuf = [] ∧
    f.sess.kcp.sndQueue.map Segment.bytes = [[1]] ∧ s'.kcp.sndQueue.map Segment.bytes = [[1, 2]] := by
  obtain ⟨f, hf, htest⟩ : ∃ f, (feedStart >>= fun f => f.calls xors oneWritten) = .ok f ∧
      ((f.sess.writeBuffersLocked [[2]] fun _ => 0).test fun x => decide (x.2 = some 1) &&
        (decide (f.sess.kcp.sndBuf = []) && (decide (x.1.kcp.sndBuf = []) &&
        (decide (f.sess.kcp.sndQueue.map Segment.bytes = [[1]]) &&
        decide (x.1.kcp.sndQueue.map Segment.bytes = [[1, 2]]))))) = true := Go.of_test (by decide +kernel)
  have hfits : ∀ l ∈ oneWritten, l.Fits := by
    simp [oneWritten, FeedCall.Fits, Call.Fits]
  obtain ⟨⟨s', r⟩, hw, hr⟩ := Go.of_test htest
  simp only [Bool.and_eq_true, decide_eq_true_eq] at hr
  obtain ⟨rfl, h1, h2, h3, h4⟩ := hr
  exact ⟨f, s', reachable_of_feed hfits hf, hw, h1, h2, h3, h4⟩

end Session
end KcpGo.L4
