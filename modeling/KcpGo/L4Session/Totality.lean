import KcpGo.L3Protocol.FecTuning
import KcpGo.L4Session.ListenerSpec

/-!
# Runs of sessions and listeners

`Session.lts` and `Listener.lts` take every call and every datagram that fits
the buffer of the read loop. `mtuLts` keeps the runs in which no `SetMtu`
underflows `int` when it takes off the header size and the overhead.

* `datagrams_bounded`: in those runs no call panics, so every slice of a pool
  buffer is within its capacity and `Seal` has its room, and no datagram is
  longer than `maxPacketSize`.
* `mtu_underflow`: after `SetMtu(math.MinInt64)` the MTU is near 2^32, and the
  next large write slices a pool buffer past its capacity.
* `input_total`: input never panics, on a session of its own or on a listener.
-/
namespace KcpGo.L4

open KcpGo.L1 KcpGo.L2

theorem xors_documented : Documented xors where
  makes := fun _ _ _ _ _ => ⟨_, rfl⟩
  total := L3.Fec.xors_total
  sized := by
    rintro d p c ⟨⟩
    exact Codec.xorPair_sized d p

namespace Session

/-- A datagram fits the buffer it is read into (src/readloop.go:43). -/
def Call.Fits : Call → Prop
  | .packetInput data _ => data.length ≤ maxPacketSize
  | _ => True

/-- Every run of a session. -/
def lts (lib : Lib) (conv : UInt32) (ds ps : Nat) (block : Block) : LTS Session Call where
  init s := Session.new lib conv ds ps block = .ok s
  step s call s' := call.Fits ∧ ∃ o, s.step lib call = .ok (s', o)

/-- A `SetMtu` that does not underflow. -/
def Call.MtuFits (s : Session) (call : Call) : Prop := ∀ mtu, call = .setMtu mtu → s.MtuFits mtu

def mtuLts (lib : Lib) (conv : UInt32) (ds ps : Nat) (block : Block) : LTS Session Call :=
  (lts lib conv ds ps block).restrict fun s call _ => call.MtuFits s

theorem admissible_of_fits {s : Session} {call : Call} (hf : call.Fits) (hm : call.MtuFits s) : s.Admissible call := by
  cases call with
  | packetInput data clks => exact hf
  | setMtu mtu => exact hm mtu rfl
  | _ => exact trivial

theorem mtuLts_inv {lib : Lib} {conv : UInt32} {ds ps : Nat} {block : Block}
    (hlib : Documented lib) (hb : block.Lawful) :
    (mtuLts lib conv ds ps block).Inductive (Inv lib) where
  init := fun s hs => (new_inv hlib.sized hb hs).1
  step := by
    rintro s call s' hinv ⟨⟨hf, o, hs⟩, hm⟩
    obtain ⟨s₁, o₁, hs₁, hinv₁, -⟩ := step_ok hlib hinv (admissible_of_fits hf hm)
    rw [hs] at hs₁
    cases hs₁
    exact hinv₁

theorem mtuLts_block {lib : Lib} {conv : UInt32} {ds ps : Nat} {block : Block}
    (hlib : Documented lib) (hb : block.Lawful) :
    (mtuLts lib conv ds ps block).Inductive fun s => s.block = block where
  init := fun s hs => (new_inv hlib.sized hb hs).2.1
  step := by
    rintro s call s' h ⟨⟨-, o, hs⟩, -⟩
    exact (step_block hs).trans h

/-- The calls one after the other. -/
def calls (lib : Lib) : Session → List Call → Go Session
  | s, [] => .ok s
  | s, call :: cs => do
    let (s, _) ← s.step lib call
    calls lib s cs

theorem run_of_calls {lib : Lib} {M : LTS Session Call} {cs : List Call}
    (hM : ∀ call ∈ cs, ∀ s s' o, s.step lib call = .ok (s', o) → M.step s call s') :
    ∀ {s s' : Session}, calls lib s cs = .ok s' → M.Run s cs s' := by
  induction cs with
  | nil =>
    intro s s' h
    cases h
    exact .nil _
  | cons call cs ih =>
    intro s s' h
    obtain ⟨⟨s₁, o⟩, h1, h⟩ := Go.bind_ok h
    exact .cons (hM call List.mem_cons_self s s₁ o h1) (ih (fun c hc => hM c (List.mem_cons_of_mem _ hc)) h)

/-- **Datagrams are bounded.** Along every run whose `SetMtu` calls do not
underflow, the next call returns and sends nothing longer than a packet. -/
theorem datagrams_bounded {lib : Lib} {conv : UInt32} {ds ps : Nat} {block : Block} (hlib : Documented lib)
    (hb : block.Lawful) {s : Session} (hr : (mtuLts lib conv ds ps block).Reachable s) {call : Call} (hf : call.Fits)
    (hm : call.MtuFits s) : ∃ s' o, s.step lib call = .ok (s', o) ∧ ∀ d ∈ o.datagrams, d.length ≤ 1472 := by
  obtain ⟨s', o, hs, -, hout⟩ := step_ok hlib ((mtuLts_inv hlib hb).reachable s hr) (admissible_of_fits hf hm)
  exact ⟨s', o, hs, hout⟩

/-- A session with the 20-byte header and a byte to send. -/
def pending : Go Session := do
  let s ← Session.new xors 7 0 0 (.crypt .none)
  calls xors s [.write [[1]] (fun _ => 0)]

theorem datagrams_bounded_pending : ∃ s s' o, pending = .ok s ∧ (mtuLts xors 7 0 0 (.crypt .none)).Reachable s ∧
    s.step xors (.setMtu 500) = .ok (s', o) ∧ ∀ d ∈ o.datagrams, d.length ≤ 1472 := by
  obtain ⟨s, hs, hfits⟩ : ∃ s, pending = .ok s ∧ decide (s.MtuFits 500) = true := Go.of_test (by decide +kernel)
  obtain ⟨s₀, h0, hcalls⟩ := Go.bind_ok hs
  have hrun : (mtuLts xors 7 0 0 (.crypt .none)).Run s₀ [.write [[1]] (fun _ => 0)] s := by
    refine run_of_calls ?_ hcalls
    simp only [List.mem_singleton, forall_eq]
    exact fun s s' o h => ⟨⟨trivial, o, h⟩, by rintro m ⟨⟩⟩
  have hr : (mtuLts xors 7 0 0 (.crypt .none)).Reachable s := ⟨s₀, _, h0, hrun⟩
  obtain ⟨s', o, hstep, hout⟩ :=
    @datagrams_bounded xors 7 0 0 (.crypt .none) xors_documented trivial s hr (.setMtu 500)
    (show Call.Fits (.setMtu 500) from trivial)
    (by rintro m ⟨⟩; exact of_decide_eq_true hfits)
  exact ⟨s, s', o, hs, hr, hstep, hout⟩

/-- The same session after a `SetMtu` that underflows. -/
def underflowed : Go Session := do
  let s ← Session.new xors 7 0 0 (.crypt .none)
  calls xors s [.write [[1]] (fun _ => 0), .setMtu Int64.minValue]

/-- **The MTU can underflow.** `SetMtu(math.MinInt64)` returns true on the
session above and leaves an MTU near 2^32; then `Write` panics. -/
theorem mtu_underflow : ∃ s, (lts xors 7 0 0 (.crypt .none)).Reachable s ∧
    s.step xors (.write [List.replicate 1473 0] (fun _ => 0)) = .error .sliceBounds := by
  obtain ⟨s, hs, hpanic⟩ : ∃ s, underflowed = .ok s ∧
      (s.step xors (.write [List.replicate 1473 0] (fun _ => 0))).panics .sliceBounds = true :=
    Go.of_test (by decide +kernel)
  obtain ⟨s₀, h0, hcalls⟩ := Go.bind_ok hs
  have hrun : (lts xors 7 0 0 (.crypt .none)).Run s₀ [.write [[1]] (fun _ => 0), .setMtu Int64.minValue] s := by
    refine run_of_calls ?_ hcalls
    simp only [List.mem_cons, List.not_mem_nil, or_false, forall_eq_or_imp, forall_eq]
    exact ⟨fun s s' o h => ⟨trivial, o, h⟩, fun s s' o h => ⟨trivial, o, h⟩⟩
  exact ⟨s, ⟨s₀, _, h0, hrun⟩, Go.of_panics hpanic⟩

end Session

namespace Listener

variable {Addr : Type} [DecidableEq Addr]

/-- The runs of a listener: packets that fit their buffer, calls on its
sessions, `Accept` and `Close`. -/
def lts (Addr : Type) [DecidableEq Addr] (lib : Lib) (ds ps : Nat) (block : Block) :
    LTS (Listener Addr) (Event Addr) where
  init l := l = new block ds ps
  step l ev l' := l.Admissible ev ∧ ∃ out, l.step lib ev = .ok (l', out)

theorem lts_inv {lib : Lib} {ds ps : Nat} {block : Block} (hlib : Documented lib) (hb : block.Lawful)
    (ha : (IKCP_OVERHEAD : Int) < Session.firstMtu lib ds ps block) :
    (lts Addr lib ds ps block).Inductive fun l => Inv lib l ∧ l.block = block where
  init := by
    rintro l rfl
    exact ⟨new_inv hb ha, rfl⟩
  step := by
    rintro l ev l' ⟨hinv, hblock⟩ ⟨ha, out, hs⟩
    obtain ⟨l₁, out₁, hs₁, hinv₁, hblock₁, -⟩ := step_ok hlib hinv ha
    rw [hs] at hs₁
    cases hs₁
    exact ⟨hinv₁, hblock₁.trans hblock⟩

theorem inv_of_reachable {lib : Lib} {ds ps : Nat} {block : Block} (hlib : Documented lib) (hb : block.Lawful)
    {conv : UInt32} (ha : ∃ s, Session.new lib conv ds ps block = .ok s) {l : Listener Addr}
    (hr : (lts Addr lib ds ps block).Reachable l) : Inv lib l ∧ l.block = block :=
  (lts_inv hlib hb (Session.new_ok_iff.mp ha)).reachable l hr

end Listener

/-- **The input path is total.** Whatever arrives, after whatever calls: a
session of its own and a listener with the sessions it made return from
`packetInput`, and the header loop ends within as many rounds as there are
bytes. -/
theorem input_total {Addr : Type} [DecidableEq Addr] {lib : Lib} {conv₀ : UInt32} {ds ps : Nat} {block : Block}
    (hlib : Documented lib) (hb : block.Lawful) (ha : ∃ s, Session.new lib conv₀ ds ps block = .ok s) :
    (∀ conv s, (Session.mtuLts lib conv ds ps block).Reachable s → ∀ data clks, data.length ≤ 1472 →
      ∃ s' got, s.packetInput lib data clks = .ok (s', got)) ∧
    (∀ l, (Listener.lts Addr lib ds ps block).Reachable l → ∀ data addr clks, data.length ≤ 1472 →
      ∃ l' got, l.packetInput lib data addr clks = .ok (l', got)) ∧
    ∀ (pkt : PacketType) (data : Bytes) (st : InLoop) (m : Nat), data.length ≤ m →
      KCP.inputLoop pkt m data st = KCP.inputLoop pkt data.length data st := by
  refine ⟨fun conv s hr data clks hd => ?_, fun l hr data addr clks hd => ?_, fun pkt data st m hm => ?_⟩
  · obtain ⟨s', got, hs, -⟩ := Session.packetInput_ok hlib ((Session.mtuLts_inv hlib hb).reachable s hr) hd clks
    exact ⟨s', got, hs⟩
  · have hinv := (Listener.inv_of_reachable hlib hb ha hr).1
    obtain ⟨l', got, hs, -⟩ := Listener.packetInput_ok hlib hinv addr hd clks
    exact ⟨l', got, hs⟩
  · exact KCP.inputLoop_stable pkt data.length m (Nat.le_refl _) hm st

/-- The shard of a PUSH segment with one byte. -/
def pushShard (sn : UInt32) : Bytes :=
  LE.put 2 27 ++ ({ conv := 7, cmd := IKCP_CMD_PUSH, wnd := 32, sn := sn, data := some [42] } : Segment).wire

/-- The second of two data packets is lost. The first one opens a session, and
the parity packet recovers the lost segment. -/
theorem input_total_xors : ∃ l : Listener Nat, (Listener.lts Nat xors 2 1 .nil).Reachable l ∧
    ∃ l' got, l.packetInput xors (fecHeader 2 typeParity ++ xorBytes (pushShard 0) (pushShard 1)) 5 (fun _ _ => 0) =
        .ok (l', got) ∧ (0, .kcp ((pushShard 1).drop 2) .fec) ∈ got := by
  have ha : ∃ s, Session.new xors 7 2 1 .nil = .ok s := by
    obtain ⟨s, hs, -⟩ : ∃ s, Session.new xors 7 2 1 .nil = .ok s ∧ true = true := Go.of_test (by decide +kernel)
    exact ⟨s, hs⟩
  obtain ⟨⟨l, out⟩, hstep, htest⟩ : ∃ x, (Listener.new .nil 2 1 : Listener Nat).step xors
      (.packetInput (fecHeader 0 typeData ++ pushShard 0) 5 fun _ _ => 0) = .ok x ∧
      Go.test (x.1.packetInput xors (fecHeader 2 typeParity ++ xorBytes (pushShard 0) (pushShard 1)) 5 fun _ _ => 0)
        (fun y => decide ((0, .kcp ((pushShard 1).drop 2) .fec) ∈ y.2)) = true := Go.of_test (by decide +kernel)
  have hr : (Listener.lts Nat xors 2 1 .nil).Reachable l := by
    refine ⟨_, [_], rfl, .cons ⟨?_, out, hstep⟩ (.nil _)⟩
    exact (by decide : (fecHeader 0 typeData ++ pushShard 0).length ≤ maxPacketSize)
  obtain ⟨l', got, hin⟩ := (@input_total Nat _ xors 7 2 1 .nil xors_documented trivial ha).2.1 l hr
    (fecHeader 2 typeParity ++ xorBytes (pushShard 0) (pushShard 1)) 5 (fun _ _ => 0) (by decide)
  rw [hin] at htest
  exact ⟨l, hr, l', got, hin, of_decide_eq_true htest⟩

end KcpGo.L4
