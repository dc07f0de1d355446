import KcpGo.L3Protocol.Packets
import KcpGo.L4Session.Session

/-!
# What a call on a session leaves alone

Input and output change the control block, the queues and the FEC codec.
`Keeps` lists the rest: the cipher, the header size, the conversation id, the
OOB callback and whether the session is closed. Only `close` closes.
-/
namespace KcpGo.L4

open KcpGo.L1 KcpGo.L2

namespace Session

structure Keeps (s s' : Session) : Prop where
  block : s'.block = s.block
  headerSize : s'.headerSize = s.headerSize
  conv : s'.kcp.conv = s.kcp.conv
  callback : s'.callbackForOOB = s.callbackForOOB
  die : s'.die = s.die

theorem Keeps.refl (s : Session) : Keeps s s := ⟨rfl, rfl, rfl, rfl, rfl⟩

theorem Keeps.trans {a b c : Session} (h : Keeps a b) (h' : Keeps b c) : Keeps a c :=
  ⟨h'.block.trans h.block, h'.headerSize.trans h.headerSize, h'.conv.trans h.conv, h'.callback.trans h.callback,
    h'.die.trans h.die⟩

section
variable {lib : Lib} {s s' : Session}
variable {got : List Reached}

theorem push_keeps (s : Session) (r : SendRequest) : Keeps s (s.push r) := by
  unfold push
  split
  · exact ⟨rfl, rfl, rfl, rfl, rfl⟩
  · exact Keeps.refl _

theorem output_keeps {p : Bytes} (h : s.output p = .ok s') : Keeps s s' := by
  unfold output at h
  split at h
  · cases h
    exact Keeps.refl _
  split at h
  · cases h
  split at h
  · cases h
    exact Keeps.refl _
  · cases h
    exact push_keeps _ _

theorem outputs_keep {out : List Bytes} (h : out.foldlM output s = .ok s') : Keeps s s' := by
  induction out generalizing s with
  | nil =>
    cases h
    exact Keeps.refl _
  | cons p out ih =>
    rw [List.foldlM_cons] at h
    obtain ⟨s₁, h1, h2⟩ := Go.bind_ok h
    exact (output_keeps h1).trans (ih h2)

/-- A step of the control block keeps its conversation id. -/
theorem kcp_keeps {op : Op} {k : KCP} {o : Out} (h : L2.step s.kcp op = .ok (k, o)) : Keeps s { s with kcp := k } :=
  ⟨rfl, rfl, step_conv h, rfl, rfl⟩

theorem flush_keeps {ft : FlushType} {clk : Clock} (h : s.flush ft clk = .ok s') : Keeps s s' := by
  obtain ⟨⟨k, out, nx⟩, hf, hout⟩ := Go.bind_ok h
  have hstep : L2.step s.kcp (.flush ft clk) = .ok (k, ⟨nx.toNat, [], out⟩) := by
    rw [L2.step, hf]
    rfl
  exact (kcp_keeps hstep).trans (outputs_keep hout)

theorem kcpIn_keeps {data : Bytes} {pkt : PacketType} {clk : Clock} (h : s.kcpIn data pkt clk = .ok s') :
    Keeps s s' := by
  obtain ⟨⟨k, r, out⟩, hf, hout⟩ := Go.bind_ok h
  have hstep : L2.step s.kcp (.input data pkt s.ackNoDelay clk) = .ok (k, ⟨r, [], out⟩) := by
    rw [L2.step, hf]
    rfl
  exact (kcp_keeps hstep).trans (outputs_keep hout)

/-! ## Input -/

theorem inputRecovered_keeps {clks : Nat → Clock} {rs : List Bytes}
    (h : s.inputRecovered clks rs = .ok (s', got)) : Keeps s s' := by
  induction rs generalizing s clks got with
  | nil =>
    cases h
    exact Keeps.refl _
  | cons r rs ih =>
    rw [inputRecovered] at h
    split at h
    · exact ih h
    · obtain ⟨s₁, h1, h⟩ := Go.bind_ok h
      obtain ⟨⟨s₂, got'⟩, h2, h⟩ := Go.bind_ok h
      cases h
      exact (kcpIn_keeps h1).trans (ih h2)

theorem inputData_keeps {f : Bytes} {clk : Clock} (h : s.inputData f clk = .ok (s', got)) :
    Keeps s s' := by
  unfold inputData at h
  split at h
  · obtain ⟨s₁, h1, h⟩ := Go.bind_ok h
    cases h
    exact kcpIn_keeps h1
  · cases h
    exact Keeps.refl _

theorem setDec_keeps (s : Session) (dec : Option FecDecoder) : Keeps s { s with fecDecoder := dec } :=
  ⟨rfl, rfl, rfl, rfl, rfl⟩

theorem fecInput_keeps {f : Bytes} {clks : Nat → Clock} (h : s.fecInput lib f clks = .ok (s', got)) :
    Keeps s s' := by
  unfold fecInput at h
  split at h
  · cases h
    exact Keeps.refl _
  split at h
  · cases h
  · obtain ⟨⟨s₁, got₁⟩, h1, h⟩ := Go.bind_ok h
    obtain ⟨⟨dec, rs⟩, -, h⟩ := Go.bind_ok h
    obtain ⟨⟨s₂, got₂⟩, h2, h⟩ := Go.bind_ok h
    cases h
    exact ((setDec_keeps s _).trans (inputData_keeps h1)).trans ((setDec_keeps s₁ _).trans (inputRecovered_keeps h2))

theorem kcpInput_keeps {data : Bytes} {clks : Nat → Clock}
    (h : s.kcpInput lib data clks = .ok (s', got)) : Keeps s s' := by
  unfold kcpInput at h
  split at h
  · cases h
  split at h
  · exact fecInput_keeps h
  split at h
  · split at h
    · split at h
      · cases h
      · cases h
        exact Keeps.refl _
    · cases h
      exact Keeps.refl _
  · obtain ⟨s₁, h1, h⟩ := Go.bind_ok h
    cases h
    exact kcpIn_keeps h1

theorem packetInput_keeps {data : Bytes} {clks : Nat → Clock}
    (h : s.packetInput lib data clks = .ok (s', got)) : Keeps s s' := by
  obtain ⟨r, -, h⟩ := Go.bind_ok h
  split at h
  · cases h
    exact Keeps.refl _
  · split at h
    · cases h
      exact Keeps.refl _
    · exact kcpInput_keeps h

/-! ## The other calls -/

/-- The same cipher, and as open as before. -/
structure Stays (s s' : Session) : Prop where
  block : s'.block = s.block
  die : s'.die = s.die

theorem Keeps.stays (h : Keeps s s') : Stays s s' := ⟨h.block, h.die⟩

theorem writeBuffers_stays {v : List Bytes} {clk : Clock} {n : Option Nat} (h : s.writeBuffers v clk = .ok (s', n)) :
    Stays s s' := by
  unfold writeBuffers writeBuffersLocked at h
  split at h
  · cases h
    exact ⟨rfl, rfl⟩
  split at h
  · cases h
    exact ⟨rfl, rfl⟩
  obtain ⟨k, -, h⟩ := Go.bind_ok h
  dsimp only at h
  split at h
  · obtain ⟨s₁, h1, h⟩ := Go.bind_ok h
    cases h
    have := flush_keeps h1
    exact ⟨this.block, this.die⟩
  · cases h
    exact ⟨rfl, rfl⟩

theorem readLocked_stays {n : Nat} {d : Option Bytes} (h : s.readLocked n = .ok (s', d)) : Stays s s' := by
  unfold readLocked at h
  split at h
  · cases h
    exact ⟨rfl, rfl⟩
  split at h
  · cases h
    exact ⟨rfl, rfl⟩
  split at h <;>
  · obtain ⟨x, -, h⟩ := Go.bind_ok h
    cases h
    exact ⟨rfl, rfl⟩

theorem sendOOB_stays {data : Bytes} (h : s.sendOOB data = .ok s') : Stays s s' := by
  unfold sendOOB at h
  split at h
  · cases h
    exact ⟨rfl, rfl⟩
  split at h
  · cases h
    exact ⟨rfl, rfl⟩
  split at h
  · cases h
  split at h
  · cases h
    exact ⟨rfl, rfl⟩
  · cases h
    exact (push_keeps _ _).stays

theorem postProcess_stays {rnd : Nat → Bytes} {now : Int} {out : List Bytes}
    (h : s.postProcess rnd now = .ok (s', out)) :
    Stays s s' := by
  unfold postProcess at h
  split at h
  · cases h
    exact ⟨rfl, rfl⟩
  · obtain ⟨_, -, h⟩ := Go.bind_ok h
    obtain ⟨_, -, h⟩ := Go.bind_ok h
    obtain ⟨_, -, h⟩ := Go.bind_ok h
    obtain ⟨_, -, h⟩ := Go.bind_ok h
    obtain ⟨_, -, h⟩ := Go.bind_ok h
    obtain ⟨_, -, h⟩ := Go.bind_ok h
    cases h
    exact ⟨rfl, rfl⟩

theorem setMtu_stays {mtu : Int64} {b : Bool} (h : s.setMtu mtu = .ok (s', b)) : Stays s s' := by
  obtain ⟨⟨k, r⟩, -, h⟩ := Go.bind_ok h
  cases h
  exact ⟨rfl, rfl⟩

theorem close_closes {clk : Clock} (h : s.close clk = .ok s') : s'.block = s.block ∧ s'.die = true := by
  unfold close at h
  split at h
  · rename_i hd
    cases h
    exact ⟨rfl, hd⟩
  · obtain ⟨s₁, h1, h⟩ := Go.bind_ok h
    cases h
    exact ⟨(flush_keeps h1).block, rfl⟩

/-- Nothing but `Close` closes a session. -/
theorem step_stays {call : Call} {o : Shown} (hc : ∀ clk, call ≠ .close clk) (h : s.step lib call = .ok (s', o)) :
    Stays s s' := by
  cases call with
  | close clk => exact absurd rfl (hc clk)
  | packetInput data clks =>
    obtain ⟨⟨s₁, got⟩, h1, h⟩ := Go.bind_ok h
    cases h
    exact (packetInput_keeps h1).stays
  | write v clk =>
    obtain ⟨⟨s₁, n⟩, h1, h⟩ := Go.bind_ok h
    cases h
    exact writeBuffers_stays h1
  | read n =>
    obtain ⟨⟨s₁, d⟩, h1, h⟩ := Go.bind_ok h
    cases h
    exact readLocked_stays h1
  | update clk =>
    obtain ⟨s₁, h1, h⟩ := Go.bind_ok h
    cases h
    unfold update at h1
    split at h1
    · cases h1
      exact ⟨rfl, rfl⟩
    · exact (flush_keeps h1).stays
  | sendOOB data =>
    obtain ⟨s₁, h1, h⟩ := Go.bind_ok h
    cases h
    exact sendOOB_stays h1
  | postProcess rnd now =>
    obtain ⟨⟨s₁, out⟩, h1, h⟩ := Go.bind_ok h
    cases h
    exact postProcess_stays h1
  | setMtu mtu =>
    obtain ⟨⟨s₁, b⟩, h1, h⟩ := Go.bind_ok h
    cases h
    exact setMtu_stays h1
  | setStreamMode | setWriteDelay | setACKNoDelay | setDUP | setOOBHandler | setWindowSize | setNoDelay | resetRTO =>
    cases h
    exact ⟨rfl, rfl⟩

theorem step_block {call : Call} {o : Shown} (h : s.step lib call = .ok (s', o)) : s'.block = s.block := by
  by_cases hc : ∃ clk, call = .close clk
  · obtain ⟨clk, rfl⟩ := hc
    obtain ⟨s₁, h1, h⟩ := Go.bind_ok h
    cases h
    exact (close_closes h1).1
  · exact (step_stays (fun clk heq => hc ⟨clk, heq⟩) h).block

end

end Session
end KcpGo.L4
