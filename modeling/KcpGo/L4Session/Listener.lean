import KcpGo.Core.Table
import KcpGo.L4Session.Session

/-!
# The listener (`sess.go`)

A `Listener` decrypts a datagram, reads the conversation id it carries and
hands it to the session registered for its source address, or makes a new
session for it.

A session is known by its position in `heap`, which holds every session the
listener ever made. The key of `sessions` is the string of an address, an
arbitrary type here. One `step` is one call; the interleavings inside a call
are in `L5Concurrency.SessionTable`.
-/
namespace KcpGo.L4

open KcpGo.L1 KcpGo.L2

/-- src/sess.go:86 -/
def acceptBacklog : Nat := 128

/-- src/kcp.go:63 -/
def IKCP_SN_OFFSET : Nat := 12

/-- A session of a listener. -/
structure Conn (Addr : Type) where
  remote : Addr
  sess : Session

/-- mirrors src/sess.go:1215-1237 (`Listener`) -/
structure Listener (Addr : Type) where
  block : Block
  dataShards : Nat
  parityShards : Nat
  heap : List (Conn Addr)
  sessions : Table Addr Nat
  chAccepts : List Nat
  die : Bool

/-- The local variables of `packetInput` that say whose packet it is. -/
structure Origin where
  hasConv : Bool
  conv : UInt32
  sn : UInt32
  deriving DecidableEq

/-- The conversation a packet names; `none` is a packet that is dropped.
mirrors src/sess.go:1290-1323 -/
def origin (data : Bytes) : Go (Option Origin) :=
  if data.length < 6 then .error .sliceBounds
  else if flag data = typeData then
    if data.length < fecHeaderSizePlus2 + IKCP_OVERHEAD then .ok (some ⟨false, 0, 0⟩)
    else .ok (some ⟨true, LE.u32 data fecHeaderSizePlus2, LE.u32 data (fecHeaderSizePlus2 + IKCP_SN_OFFSET)⟩)
  else if flag data = typeParity then .ok (some ⟨false, 0, 0⟩)
  else if flag data = typeOOB then
    if data.length < fecHeaderSizePlus2 + convSize then .error .sliceBounds
    else .ok (some ⟨true, LE.u32 data fecHeaderSizePlus2, 0⟩)
  else if data.length < IKCP_OVERHEAD then .ok none
  else .ok (some ⟨true, LE.u32 data 0, LE.u32 data IKCP_SN_OFFSET⟩)

namespace Listener

variable {Addr : Type} [DecidableEq Addr]

/-- mirrors src/sess.go:1582-1605 (`serveConn`) -/
def new (block : Block) (dataShards parityShards : Nat) : Listener Addr where
  block := block
  dataShards := dataShards
  parityShards := parityShards
  heap := []
  sessions := ∅
  chAccepts := []
  die := false

/-- mirrors src/sess.go:1506-1519 (`closeSession`) -/
def closeSession (l : Listener Addr) (remote : Addr) : Listener Addr := { l with sessions := l.sessions.erase remote }

/-- `Close` on the session `i`; only the first call does anything.
mirrors src/sess.go:523-560 (`UDPSession.Close`) -/
def closeAt (l : Listener Addr) (i : Nat) (clk : Clock) : Go (Listener Addr) :=
  match l.heap[i]? with
  | none => .error .nilDeref
  | some c =>
    if c.sess.die then .ok l
    else do
      let s ← c.sess.close clk
      .ok ({ l with heap := l.heap.set i { c with sess := s } }.closeSession c.remote)

/-- A new session for the packet, unless there is no conversation or no room.
mirrors src/sess.go:1342-1368 -/
def offer (lib : Lib) (l : Listener Addr) (o : Origin) (data : Bytes) (addr : Addr) (clks : Nat → Clock) :
    Go (Listener Addr × List (Nat × Reached)) :=
  if o.hasConv = false then .ok (l, [])
  else if acceptBacklog ≤ l.chAccepts.length then .ok (l, [])
  else do
    let s ← Session.new lib o.conv l.dataShards l.parityShards l.block
    let (s, got) ← s.kcpInput lib data (fun i => clks (i + 1))
    let i := l.heap.length
    let l : Listener Addr := { l with heap := l.heap ++ [⟨addr, s⟩] }
    let got := got.map fun r => (i, r)
    if l.die then do
      let l ← l.closeAt i (clks 0)
      .ok (l, got)
    else .ok ({ l with sessions := l.sessions.insert addr i, chAccepts := l.chAccepts ++ [i] }, got)

/-- A packet whose conversation has been read.
mirrors src/sess.go:1325-1340 -/
def dispatch (lib : Lib) (l : Listener Addr) (o : Origin) (data : Bytes) (addr : Addr) (clks : Nat → Clock) :
    Go (Listener Addr × List (Nat × Reached)) :=
  match l.sessions.lookup addr with
  | none => l.offer lib o data addr clks
  | some i =>
    match l.heap[i]? with
    | none => .error .nilDeref
    | some c =>
      if o.hasConv = false ∨ o.conv = c.sess.kcp.conv then do
        let (s, got) ← c.sess.kcpInput lib data clks
        .ok ({ l with heap := l.heap.set i { c with sess := s } }, got.map fun r => (i, r))
      else if o.sn ≠ 0 then .ok (l, [])
      else do
        let l ← l.closeAt i (clks 0)
        l.offer lib o data addr (fun i => clks (i + 1))

/-- A decrypted packet.
mirrors src/sess.go:1279-1368 -/
def decrypted (lib : Lib) (l : Listener Addr) (data : Bytes) (addr : Addr) (clks : Nat → Clock) :
    Go (Listener Addr × List (Nat × Reached)) :=
  if data.length < Session.minPacketSize then .ok (l, [])
  else do
    match ← origin data with
    | none => .ok (l, [])
    | some o => l.dispatch lib o data addr clks

/-- The listener afterwards, and what reached which session.
mirrors src/sess.go:1242-1368 (`packetInput`) -/
def packetInput (lib : Lib) (l : Listener Addr) (data : Bytes) (addr : Addr) (clks : Nat → Clock) :
    Go (Listener Addr × List (Nat × Reached)) := do
  match ← Session.unframe l.block data with
  | none => .ok (l, [])
  | some data => l.decrypted lib data addr clks

/-- A call on the session `i`. -/
def callAt (lib : Lib) (l : Listener Addr) (i : Nat) (call : Session.Call) : Go (Listener Addr × List Bytes) :=
  match l.heap[i]?, call with
  | none, _ => .error .nilDeref
  | some _, .close clk => do
    let l ← l.closeAt i clk
    .ok (l, [])
  | some c, call => do
    let (s, o) ← c.sess.step lib call
    .ok ({ l with heap := l.heap.set i { c with sess := s } }, o.datagrams)

/-- A call on the listener or on one of its sessions. -/
inductive Event (Addr : Type) where
  | packetInput (data : Bytes) (addr : Addr) (clks : Nat → Clock)
  | call (i : Nat) (call : Session.Call)
  /-- `AcceptKCP` takes the oldest session, if there is one -/
  | accept
  | close

/-- The listener afterwards, and the datagrams sent. -/
def step (lib : Lib) (l : Listener Addr) : Event Addr → Go (Listener Addr × List Bytes)
  | .packetInput data addr clks => do
    let (l, _) ← l.packetInput lib data addr clks
    .ok (l, [])
  | .call i call => l.callAt lib i call
  | .accept => .ok ({ l with chAccepts := l.chAccepts.tail }, [])
  | .close => .ok ({ l with die := true }, [])

end Listener
end KcpGo.L4
