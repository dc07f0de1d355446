import KcpGo.Core.LTS
import KcpGo.L4Session.Session

/-!
# What a call does to the control block

Every call on a session is a run of operations of its control block
(`Operates`). Only `Read` uses `Recv` and the reader `input`.

* `step_operates`: every other call, with the operations it may use.
-/
namespace KcpGo.L4

open KcpGo.L1 KcpGo.L2

/-- The operations of a control block. -/
def opLts : LTS KCP Op where
  init _ := True
  step k op k' := ∃ o, L2.step k op = .ok (k', o)

/-- What input and output use. -/
def Inner : Op → Prop
  | .send _ => True
  | .input _ _ _ _ => True
  | .flush _ _ => True
  | _ => False

namespace Session

/-- `s'` is `s` after operations that satisfy `P`, with the reader, the
cipher and the header size as they were. -/
structure Operates (P : Op → Prop) (s s' : Session) : Prop where
  run : ∃ ops, opLts.Run s.kcp ops s'.kcp ∧ ∀ op ∈ ops, P op
  input : s'.input = s.input
  recvCap : s'.recvCap = s.recvCap
  headerSize : s'.headerSize = s.headerSize
  block : s'.block = s.block

variable {P : Op → Prop}

theorem Operates.of_kcp {s s' : Session} (hk : s'.kcp = s.kcp) (hi : s'.input = s.input) (hc : s'.recvCap = s.recvCap)
    (hh : s'.headerSize = s.headerSize) (hb : s'.block = s.block) : Operates P s s' :=
  ⟨⟨[], by rw [hk]; exact .nil _, by simp⟩, hi, hc, hh, hb⟩

theorem Operates.refl (s : Session) : Operates P s s := .of_kcp rfl rfl rfl rfl rfl

theorem Operates.trans {a b c : Session} (h : Operates P a b) (h' : Operates P b c) : Operates P a c := by
  obtain ⟨l, hl, hn⟩ := h.run
  obtain ⟨m, hm, hn'⟩ := h'.run
  refine ⟨⟨l ++ m, hl.append hm, fun op hop => ?_⟩, h'.input.trans h.input, h'.recvCap.trans h.recvCap,
    h'.headerSize.trans h.headerSize, h'.block.trans h.block⟩
  rcases List.mem_append.mp hop with hop | hop
  · exact hn op hop
  · exact hn' op hop

section
variable {lib : Lib} {s s' : Session}
variable {got : List Reached}

/-- One operation. -/
theorem Operates.op (op : Op) (hop : P op) {k : KCP} {o : Out} (h : L2.step s.kcp op = .ok (k, o)) :
    Operates P s { s with kcp := k } :=
  ⟨⟨[op], .cons ⟨o, h⟩ (.nil _), by simpa using hop⟩, rfl, rfl, rfl, rfl⟩

theorem push_operates (s : Session) (r : SendRequest) : Operates Inner s (s.push r) := by
  unfold push
  split
  · exact .of_kcp rfl rfl rfl rfl rfl
  · exact Operates.refl s

theorem output_operates {p : Bytes} (h : s.output p = .ok s') : Operates Inner s s' := by
  unfold output at h
  split at h
  · cases h
    exact Operates.refl _
  split at h
  · cases h
  split at h
  · cases h
    exact Operates.refl _
  · cases h
    exact push_operates _ _

theorem outputs_operate {out : List Bytes} (h : out.foldlM output s = .ok s') : Operates Inner s s' := by
  induction out generalizing s with
  | nil =>
    cases h
    exact Operates.refl _
  | cons p out ih =>
    rw [List.foldlM_cons] at h
    obtain ⟨s₁, h1, h2⟩ := Go.bind_ok h
    exact (output_operates h1).trans (ih h2)

theorem flush_operates {ft : FlushType} {clk : Clock} (h : s.flush ft clk = .ok s') : Operates Inner s s' := by
  obtain ⟨⟨k, out, nx⟩, hf, hout⟩ := Go.bind_ok h
  have hstep : L2.step s.kcp (.flush ft clk) = .ok (k, ⟨nx.toNat, [], out⟩) := by
    rw [L2.step, hf]
    rfl
  exact (Operates.op (.flush ft clk) trivial hstep).trans (outputs_operate hout)

theorem kcpIn_operates {data : Bytes} {pkt : PacketType} {clk : Clock} (h : s.kcpIn data pkt clk = .ok s') :
    Operates Inner s s' := by
  obtain ⟨⟨k, r, out⟩, hf, hout⟩ := Go.bind_ok h
  have hstep : L2.step s.kcp (.input data pkt s.ackNoDelay clk) = .ok (k, ⟨r, [], out⟩) := by
    rw [L2.step, hf]
    rfl
  exact (Operates.op (.input data pkt s.ackNoDelay clk) trivial hstep).trans (outputs_operate hout)

/-! ## Input -/

theorem inputRecovered_operates {clks : Nat → Clock} {rs : List Bytes}
    (h : s.inputRecovered clks rs = .ok (s', got)) : Operates Inner s s' := by
  induction rs generalizing s clks got with
  | nil =>
    cases h
    exact Operates.refl _
  | cons r rs ih =>
    rw [inputRecovered] at h
    split at h
    · exact ih h
    · obtain ⟨s₁, h1, h⟩ := Go.bind_ok h
      obtain ⟨⟨s₂, got'⟩, h2, h⟩ := Go.bind_ok h
      cases h
      exact (kcpIn_operates h1).trans (ih h2)

theorem inputData_operates {f : Bytes} {clk : Clock} (h : s.inputData f clk = .ok (s', got)) :
    Operates Inner s s' := by
  unfold inputData at h
  split at h
  · obtain ⟨s₁, h1, h⟩ := Go.bind_ok h
    cases h
    exact kcpIn_operates h1
  · cases h
    exact Operates.refl _

theorem setDec_operates (s : Session) (dec : Option FecDecoder) : Operates Inner s { s with fecDecoder := dec } :=
  .of_kcp rfl rfl rfl rfl rfl

theorem fecInput_operates {f : Bytes} {clks : Nat → Clock} (h : s.fecInput lib f clks = .ok (s', got)) :
    Operates Inner s s' := by
  unfold fecInput at h
  split at h
  · cases h
    exact Operates.refl _
  split at h
  · cases h
  · obtain ⟨⟨s₁, got₁⟩, h1, h⟩ := Go.bind_ok h
    obtain ⟨⟨dec, rs⟩, -, h⟩ := Go.bind_ok h
    obtain ⟨⟨s₂, got₂⟩, h2, h⟩ := Go.bind_ok h
    cases h
    exact ((setDec_operates s _).trans (inputData_operates h1)).trans
      ((setDec_operates s₁ _).trans (inputRecovered_operates h2))

theorem kcpInput_operates {data : Bytes} {clks : Nat → Clock}
    (h : s.kcpInput lib data clks = .ok (s', got)) : Operates Inner s s' := by
  unfold kcpInput at h
  split at h
  · cases h
  split at h
  · exact fecInput_operates h
  split at h
  · split at h
    · split at h
      · cases h
      · cases h
        exact Operates.refl _
    · cases h
      exact Operates.refl _
  · obtain ⟨s₁, h1, h⟩ := Go.bind_ok h
    cases h
    exact kcpIn_operates h1

theorem packetInput_operates {data : Bytes} {clks : Nat → Clock}
    (h : s.packetInput lib data clks = .ok (s', got)) : Operates Inner s s' := by
  obtain ⟨r, -, h⟩ := Go.bind_ok h
  split at h
  · cases h
    exact Operates.refl _
  · split at h
    · cases h
      exact Operates.refl _
    · exact kcpInput_operates h

/-! ## Writing -/

theorem send_operates {b : Bytes} {k : KCP} {r : Int} (h : s.kcp.send b = .ok (k, r)) :
    Operates Inner s { s with kcp := k } := by
  have hstep : L2.step s.kcp (.send b) = .ok (k, ⟨r, [], []⟩) := by
    rw [L2.step, h]
    rfl
  exact Operates.op (.send b) trivial hstep

theorem sendPieces_operates {n : Nat} {b : Bytes} {k : KCP} (h : sendPieces n s.kcp b = .ok k) :
    Operates Inner s { s with kcp := k } := by
  induction n generalizing s b with
  | zero =>
    cases h
    exact Operates.refl _
  | succ n ih =>
    rw [sendPieces] at h
    split at h
    · obtain ⟨⟨k₁, r⟩, h1, h⟩ := Go.bind_ok h
      cases h
      exact send_operates h1
    · obtain ⟨⟨k₁, r⟩, h1, h⟩ := Go.bind_ok h
      exact (send_operates h1).trans (ih (s := { s with kcp := k₁ }) h)

theorem sendAll_operates {v : List Bytes} {k : KCP}
    (h : v.foldlM (fun k b => sendPieces (b.length + 1) k b) s.kcp = .ok k) : Operates Inner s { s with kcp := k } := by
  induction v generalizing s with
  | nil =>
    cases h
    exact Operates.refl _
  | cons b v ih =>
    rw [List.foldlM_cons] at h
    obtain ⟨k₁, h1, h⟩ := Go.bind_ok h
    exact (sendPieces_operates h1).trans (ih (s := { s with kcp := k₁ }) h)

theorem writeBuffersLocked_operates {v : List Bytes} {clk : Clock} {n : Option Nat}
    (h : s.writeBuffersLocked v clk = .ok (s', n)) : Operates Inner s s' := by
  unfold writeBuffersLocked at h
  split at h
  · cases h
    exact Operates.refl _
  obtain ⟨k, h1, h⟩ := Go.bind_ok h
  dsimp only at h
  split at h
  · obtain ⟨s₁, h2, h⟩ := Go.bind_ok h
    cases h
    exact (sendAll_operates h1).trans (flush_operates h2)
  · cases h
    exact sendAll_operates h1

/-! ## The other calls -/

theorem close_operates {clk : Clock} (h : s.close clk = .ok s') : Operates Inner s s' := by
  unfold close at h
  split at h
  · cases h
    exact Operates.refl _
  · obtain ⟨s₁, h1, h⟩ := Go.bind_ok h
    cases h
    exact (flush_operates h1).trans (.of_kcp rfl rfl rfl rfl rfl)

theorem sendOOB_operates {data : Bytes} (h : s.sendOOB data = .ok s') : Operates Inner s s' := by
  unfold sendOOB at h
  split at h
  · cases h
    exact Operates.refl _
  split at h
  · cases h
    exact Operates.refl _
  split at h
  · cases h
  split at h
  · cases h
    exact Operates.refl _
  · cases h
    exact push_operates _ _

theorem postProcess_operates {rnd : Nat → Bytes} {now : Int} {out : List Bytes}
    (h : s.postProcess rnd now = .ok (s', out)) : Operates Inner s s' := by
  unfold postProcess at h
  split at h
  · cases h
    exact Operates.refl _
  · obtain ⟨_, -, h⟩ := Go.bind_ok h
    obtain ⟨_, -, h⟩ := Go.bind_ok h
    obtain ⟨_, -, h⟩ := Go.bind_ok h
    obtain ⟨_, -, h⟩ := Go.bind_ok h
    obtain ⟨_, -, h⟩ := Go.bind_ok h
    obtain ⟨_, -, h⟩ := Go.bind_ok h
    cases h
    exact .of_kcp rfl rfl rfl rfl rfl

/-- The operations of a call. -/
def Call.ops (s : Session) : Call → Op → Prop
  | .setMtu mtu, op => op = .setMtu (min 1472 mtu - Int64.ofNat s.headerSize - Int64.ofNat s.block.overhead).toInt
  | .setStreamMode enable, op => op = .setStream enable
  | .setWindowSize a b, op => op = .wndSize a b
  | .setNoDelay a b c d, op => op = .noDelay a b c d
  | .resetRTO clk, op => op = .resetRTO clk
  | _, op => Inner op

theorem setMtu_operates {mtu : Int64} {b : Bool} (h : s.setMtu mtu = .ok (s', b)) :
    Operates ((Call.setMtu mtu).ops s) s s' := by
  obtain ⟨⟨k, r⟩, h1, h⟩ := Go.bind_ok h
  cases h
  have hstep : L2.step s.kcp (.setMtu (min 1472 mtu - Int64.ofNat s.headerSize - Int64.ofNat s.block.overhead).toInt) =
      .ok (k, ⟨r, [], []⟩) := by
    rw [L2.step, h1]
    rfl
  refine Operates.op (.setMtu _) ?_ hstep
  rfl

/-- Every call but `Read`. -/
theorem step_operates {call : Call} {o : Shown} (hc : ∀ n, call ≠ .read n) (h : s.step lib call = .ok (s', o)) :
    Operates (call.ops s) s s' := by
  cases call with
  | read n => exact absurd rfl (hc n)
  | packetInput data clks =>
    obtain ⟨⟨s₁, got⟩, h1, h⟩ := Go.bind_ok h
    cases h
    exact packetInput_operates h1
  | write v clk =>
    obtain ⟨⟨s₁, n⟩, h1, h⟩ := Go.bind_ok h
    cases h
    unfold writeBuffers at h1
    split at h1
    · cases h1
      exact Operates.refl _
    · exact writeBuffersLocked_operates h1
  | update clk =>
    obtain ⟨s₁, h1, h⟩ := Go.bind_ok h
    cases h
    unfold update at h1
    split at h1
    · cases h1
      exact Operates.refl _
    · exact flush_operates h1
  | sendOOB data =>
    obtain ⟨s₁, h1, h⟩ := Go.bind_ok h
    cases h
    exact sendOOB_operates h1
  | postProcess rnd now =>
    obtain ⟨⟨s₁, out⟩, h1, h⟩ := Go.bind_ok h
    cases h
    exact postProcess_operates h1
  | close clk =>
    obtain ⟨s₁, h1, h⟩ := Go.bind_ok h
    cases h
    exact close_operates h1
  | setMtu mtu =>
    obtain ⟨⟨s₁, b⟩, h1, h⟩ := Go.bind_ok h
    cases h
    exact setMtu_operates h1
  | setStreamMode enable =>
    cases h
    refine Operates.op (.setStream enable) ?_ rfl
    rfl
  | setWindowSize a b =>
    cases h
    refine Operates.op (.wndSize a b) ?_ rfl
    rfl
  | setNoDelay a b c d =>
    cases h
    refine Operates.op (.noDelay a b c d) ?_ rfl
    rfl
  | resetRTO clk =>
    cases h
    refine Operates.op (.resetRTO clk) ?_ rfl
    rfl
  | setWriteDelay | setACKNoDelay | setDUP | setOOBHandler =>
    cases h
    exact .of_kcp rfl rfl rfl rfl rfl

end

end Session
end KcpGo.L4
