import KcpGo.L3Protocol.Receiver
import Mathlib.Logic.Function.Basic

/-!
# Two endpoints and a lossy network

Two control blocks with the same conversation id. Each packet an endpoint
passes to `output` is put on the way to the other side; the network may drop
it, deliver it and keep a copy, and pick packets in any order, but not alter
them.

Ghost state: the sequence counters without the wrap (advanced by the wrapped
difference an operation makes), the segments numbered so far, the segments
`Recv` took, the messages `Send` accepted, whether it refused one, and the
byte strings `Recv` returned. A packet remembers the counters when it was
sent.
-/
namespace KcpGo.L3

open KcpGo.L1 KcpGo.L2

inductive Side where
  | A | B
  deriving DecidableEq, Repr

namespace Side

def peer : Side → Side
  | A => B
  | B => A

@[simp] theorem peer_peer (s : Side) : s.peer.peer = s := by cases s <;> rfl
@[simp] theorem peer_ne (s : Side) : s.peer ≠ s := by cases s <;> decide
@[simp] theorem ne_peer (s : Side) : s ≠ s.peer := by cases s <;> decide

theorem eq_or_peer (s t : Side) : t = s ∨ t = s.peer := by cases s <;> cases t <;> decide

end Side

/-- `snd_una`, `snd_nxt` and `rcv_nxt` without the wrap. -/
structure Counters where
  una : Nat
  nxt : Nat
  rcv : Nat
  deriving DecidableEq, Repr

/-- An endpoint with its ghost history. -/
structure End where
  kcp : KCP
  cnt : Counters
  sent : List Segment
  popped : List Segment
  msgs : List Bytes
  refused : Bool
  reads : List Bytes

/-- A packet on its way, with the counters of both ends when it was sent. -/
structure Pkt where
  bytes : Bytes
  stamp : Side → Counters

/-- `net s` are the packets on their way to `s`. -/
structure Sys where
  ends : Side → End
  net : Side → List Pkt

/-- How the application sets up an endpoint before any traffic. -/
structure Setup where
  stream : Int32 := 0
  sndWnd : UInt32 := IKCP_WND_SND
  rcvWnd : UInt32 := IKCP_WND_RCV

def Setup.kcp (conv : UInt32) (c : Setup) : KCP :=
  { newKCP conv with stream := c.stream, sndWnd := c.sndWnd, rcvWnd := c.rcvWnd }

def initial (conv : UInt32) (c : Side → Setup) : Sys where
  ends s := ⟨(c s).kcp conv, ⟨0, 0, 0⟩, [], [], [], false, []⟩
  net _ := []

/-- How far a counter moved. -/
def moved (now before : UInt32) : Nat := (now - before).toNat

/-- The endpoint after an operation that left `k` and showed `o`. -/
def End.after (x : End) (op : Op) (k : KCP) (o : Out) : End where
  kcp := k
  cnt := ⟨x.cnt.una + moved k.sndUna x.kcp.sndUna, x.cnt.nxt + moved k.sndNxt x.kcp.sndNxt,
    x.cnt.rcv + moved k.rcvNxt x.kcp.rcvNxt⟩
  sent := x.sent ++ k.sndBuf.drop (k.sndBuf.length - moved k.sndNxt x.kcp.sndNxt)
  popped := x.popped ++ consumed x.kcp op
  msgs := match op with
    | .send buffer => if o.ret = 0 then x.msgs ++ [buffer] else x.msgs
    | _ => x.msgs
  refused := match op with
    | .send buffer => x.refused || decide (buffer ≠ [] ∧ o.ret ≠ 0)
    | _ => x.refused
  reads := match op with
    | .recv _ => if 0 ≤ o.ret then x.reads ++ [o.data] else x.reads
    | _ => x.reads

/-- The operation `op` at side `s`; nothing follows a panic. -/
def act (y : Sys) (s : Side) (op : Op) : Option Sys :=
  match step (y.ends s).kcp op with
  | .error _ => none
  | .ok (k, o) =>
    let ends := Function.update y.ends s ((y.ends s).after op k o)
    some { ends := ends
           net := Function.update y.net s.peer
             (y.net s.peer ++ o.pkts.map fun p => ⟨p, fun t => (ends t).cnt⟩) }

inductive Ev where
  /-- The application of `s` calls `op`. -/
  | app (s : Side) (op : Op)
  /-- The `i`-th packet on its way to `s` arrives; `keep`: a copy stays. -/
  | deliver (s : Side) (i : Nat) (keep : Bool) (pkt : PacketType) (ackNoDelay : Bool) (clk : Clock)
  | drop (s : Side) (i : Nat)

/-- What an application may call: packets come from the network only, the
stream mode is set before any traffic, and the MTU fits a pool buffer. -/
def appOp : Op → Bool
  | .input _ _ _ _ => false
  | .setStream _ => false
  | .setMtu mtu => decide (mtu ≤ 1472)
  | _ => true

def Sys.remove (y : Sys) (s : Side) (i : Nat) : Sys :=
  { y with net := Function.update y.net s ((y.net s).eraseIdx i) }

def next (y : Sys) : Ev → Option Sys
  | .app s op => if appOp op then act y s op else none
  | .deliver s i keep pkt nd clk =>
    match (y.net s)[i]? with
    | none => none
    | some p => act (if keep then y else y.remove s i) s (.input p.bytes pkt nd clk)
  | .drop s i => some (y.remove s i)

/-- The two-endpoint system. -/
def system (conv : UInt32) (c : Side → Setup) : LTS Sys Ev := LTS.ofFn (· = initial conv c) next

/-- No counter is more than 2^30 past its value when `p` was sent. -/
def Pkt.Fresh (p : Pkt) (y : Sys) : Prop :=
  ∀ t, (y.ends t).cnt.una ≤ (p.stamp t).una + 2 ^ 30 ∧ (y.ends t).cnt.nxt ≤ (p.stamp t).nxt + 2 ^ 30 ∧
    (y.ends t).cnt.rcv ≤ (p.stamp t).rcv + 2 ^ 30

/-- Packets arrive while they are fresh. -/
def FreshStep (y : Sys) (e : Ev) (_ : Sys) : Prop :=
  match e with
  | .deliver s i _ _ _ _ => ∀ p, (y.net s)[i]? = some p → p.Fresh y
  | _ => True

/-- The runs in which every packet arrives fresh. -/
def freshSystem (conv : UInt32) (c : Side → Setup) : LTS Sys Ev := (system conv c).restrict FreshStep

/-! ## Runs that compute -/

/-- The events one after the other, each one admitted by `g`. -/
abbrev play (g : Sys → Ev → Bool) : Sys → List Ev → Option Sys := LTS.play next g

instance (p : Pkt) (y : Sys) : Decidable (p.Fresh y) :=
  decidable_of_iff (∀ t ∈ [Side.A, Side.B], (y.ends t).cnt.una ≤ (p.stamp t).una + 2 ^ 30 ∧
      (y.ends t).cnt.nxt ≤ (p.stamp t).nxt + 2 ^ 30 ∧ (y.ends t).cnt.rcv ≤ (p.stamp t).rcv + 2 ^ 30)
    ⟨fun h t => h t (by cases t <;> simp), fun h t _ => h t⟩

/-- The packet that arrives, if one does, is fresh. -/
def freshEv (y : Sys) : Ev → Bool
  | .deliver s i _ _ _ _ => (y.net s)[i]?.all fun p => decide (p.Fresh y)
  | _ => true

theorem freshStep_of_freshEv {y y' : Sys} {e : Ev} (h : freshEv y e = true) : FreshStep y e y' := by
  cases e with
  | app s op => trivial
  | drop s i => trivial
  | deliver s i keep pkt nd clk =>
    intro p hp
    simp only [freshEv, hp, Option.all_some, decide_eq_true_eq] at h
    exact h

theorem play_reachable {conv : UInt32} {c : Side → Setup} {es : List Ev} {y : Sys}
    (h : play freshEv (initial conv c) es = some y) : (freshSystem conv c).Reachable y :=
  ⟨_, es, rfl, LTS.play_run (M := freshSystem conv c) (fun _ _ _ hg hn => ⟨hn, freshStep_of_freshEv hg⟩) h⟩

/-- What an operation changes. -/
theorem act_spec {y y' : Sys} {s : Side} {op : Op} (h : act y s op = some y') :
    ∃ k o, step (y.ends s).kcp op = .ok (k, o) ∧
      y'.ends s = (y.ends s).after op k o ∧ y'.ends s.peer = y.ends s.peer ∧ y'.net s = y.net s ∧
      y'.net s.peer = y.net s.peer ++ o.pkts.map fun p => ⟨p, fun t => (y'.ends t).cnt⟩ := by
  unfold act at h
  split at h
  · cases h
  · rename_i k o hs
    cases h
    refine ⟨k, o, hs, ?_, ?_, ?_, ?_⟩
    · simp
    · simp
    · simp
    · simp

end KcpGo.L3
