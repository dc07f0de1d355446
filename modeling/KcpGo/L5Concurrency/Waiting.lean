import KcpGo.Core.Claim
import KcpGo.Core.LTS
import KcpGo.L4Session.ByteStream
import Mathlib.Logic.Function.Basic

/-!
# Readers and writers that wait for a session (`sess.go:294-511`)

Any goroutines `γ` are in `Read` or in `WriteBuffers`; packets arrive and the
updater runs in between. A critical section under `s.mu` is one step, with the
notification at its end, and so is each channel operation. The two event
channels and the gate have room for one token.

A deadline, a socket error or `Close` can end the wait of any goroutine at any
time (`leave`). A critical section that panics ends the process, so it is no
step.

* `step_of_next` says once what a step can do.
* `read_wakeup`: readers do not sleep while there is data.
* `write_wakeup`: a token for the holder of the gate can go to a goroutine that
  waits for the gate; without such a step, no holder sleeps while the window
  has room. `token_stolen` is a run with such a step.
-/

namespace KcpGo.L5.Waiting

open KcpGo.L1 KcpGo.L2

/-- Where a goroutine is.
mirrors src/sess.go:349-366, 416-462, 481-511 -/
inductive Doing where
  | idle
  /-- in `Read` with `len(b) = n`, before the lock -/
  | read (n : Nat)
  /-- at the `select` of `Read` -/
  | readWait (n : Nat)
  /-- in `acquireWriteGate` -/
  | gate (v : List Bytes)
  /-- at the `select` of `waitWriteGate` -/
  | gateWait (v : List Bytes)
  /-- holds the gate, before the checks of the loop -/
  | check (v : List Bytes)
  /-- before the lock of `writeBuffers` -/
  | write (v : List Bytes)
  /-- at the `select` for window space -/
  | spaceWait (v : List Bytes)
  /-- before `releaseWriteGate` -/
  | release
  deriving DecidableEq

structure State (γ : Type) where
  sess : L4.Session
  chReadEvent : Bool
  chWriteEvent : Bool
  writeGate : Bool
  doing : γ → Doing

inductive Ev (γ : Type) where
  | callRead (g : γ) (n : Nat)
  | tryRead (n : Nat)
  | callWrite (g : γ) (v : List Bytes)
  /-- the critical section of a reader or a writer -/
  | lock (g : γ) (clk : Clock)
  /-- a receive from `chReadEvent` or `chWriteEvent` -/
  | event (g : γ)
  /-- a receive from `writeGate`, or the default case -/
  | gate (g : γ)
  /-- no error yet -/
  | check (g : γ)
  /-- a deadline, an error, or `die` -/
  | leave (g : γ)
  | release (g : γ)
  | kcpInput (data : Bytes) (clks : Nat → Clock)
  | update (clk : Clock)

/-- mirrors src/sess.go:1680 -/
def available (s : L4.Session) : Bool := decide (s.input ≠ []) || decide (0 < s.kcp.peekSize)

/-- mirrors src/sess.go:868, 1159, 1188 -/
def hasRoom (s : L4.Session) : Bool := decide (s.kcp.waitSnd < s.kcp.sndWnd.toNat)

/-- The packets for which `kcpInput` takes the lock.
mirrors src/sess.go:1107-1119, 1166-1177 -/
def locks (data : Bytes) : Bool :=
  if flag data = typeData ∨ flag data = typeParity then decide (fecHeaderSizePlus2 ≤ data.length)
    else decide (flag data ≠ typeOOB)

variable {γ : Type} [DecidableEq γ]

namespace State

variable (y : State γ)

def go (g : γ) (d : Doing) : State γ := { y with doing := Function.update y.doing g d }

/-- `read` of a goroutine with room for `n` bytes, and whether it got any.
mirrors src/sess.go:296-346 -/
def read (n : Nat) : Option (State γ × Bool) :=
  match y.sess.readLocked n with
  | .ok (s, some _) => some ({ y with sess := s, chReadEvent := y.chReadEvent || available s }, true)
  | .ok (s, none) => some ({ y with sess := s }, false)
  | .error _ => none

/-- mirrors src/sess.go:401-413 -/
def write (g : γ) (v : List Bytes) (clk : Clock) : Option (State γ) :=
  match y.sess.writeBuffersLocked v clk with
  | .ok (s, some _) => some ({ y with sess := s }.go g .release)
  | .ok (s, none) => some ({ y with sess := s }.go g (.spaceWait v))
  | .error _ => none

/-- The end of a critical section of `kcpInput`.
mirrors src/sess.go:1151-1161, 1183-1190 -/
def notify (s : L4.Session) : State γ :=
  { y with
    sess := s
    chReadEvent := y.chReadEvent || decide (0 < s.kcp.peekSize)
    chWriteEvent := y.chWriteEvent || hasRoom s }

def next (lib : Lib) : Ev γ → Option (State γ)
  | .callRead g n =>
    match y.doing g with
    | .idle => some (y.go g (.read n))
    | _ => none
  | .tryRead n => (y.read n).map Prod.fst
  | .callWrite g v =>
    match y.doing g with
    | .idle => if v.all List.isEmpty then none else some (y.go g (.gate v))
    | _ => none
  | .lock g clk =>
    match y.doing g with
    | .read n => (y.read n).map fun r => r.1.go g (if r.2 then .idle else .readWait n)
    | .write v => y.write g v clk
    | _ => none
  | .event g =>
    match y.doing g with
    | .readWait n => if y.chReadEvent then some ({ y with chReadEvent := false }.go g (.read n)) else none
    | .gateWait v => if y.chWriteEvent then some ({ y with chWriteEvent := false }.go g (.gateWait v)) else none
    | .spaceWait v => if y.chWriteEvent then some ({ y with chWriteEvent := false }.go g (.check v)) else none
    | _ => none
  | .gate g =>
    match y.doing g with
    | .gate v =>
      if y.writeGate then some ({ y with writeGate := false }.go g (.check v)) else some (y.go g (.gateWait v))
    | .gateWait v => if y.writeGate then some ({ y with writeGate := false }.go g (.check v)) else none
    | _ => none
  | .check g =>
    match y.doing g with
    | .check v => some (y.go g (.write v))
    | _ => none
  | .leave g =>
    match y.doing g with
    | .readWait _ => some (y.go g .idle)
    | .gateWait _ => some (y.go g .idle)
    | .check _ => some (y.go g .release)
    | .spaceWait _ => some (y.go g .release)
    | _ => none
  | .release g =>
    match y.doing g with
    | .release => if y.writeGate then none else some ({ y with writeGate := true }.go g .idle)
    | _ => none
  | .kcpInput data clks =>
    match y.sess.kcpInput lib data clks with
    | .ok (s, _) => some (if locks data then y.notify s else { y with sess := s })
    | .error _ => none
  -- src/sess.go:861-871
  | .update clk =>
    match y.sess.update clk with
    | .ok s => some { y with sess := s, chWriteEvent := y.chWriteEvent || (!y.sess.die && hasRoom s) }
    | .error _ => none

end State

/-- The calls that configure a session. -/
def isSetter : L4.Session.Call → Bool
  | .setMtu _ | .setStreamMode _ | .setWriteDelay _ | .setACKNoDelay _ | .setDUP _ | .setOOBHandler | .setWindowSize _ _
  | .setNoDelay _ _ _ _ => true
  | _ => false

/-- A new session, configured, with nobody in it.
mirrors src/sess.go:203-207 -/
def initial (s : L4.Session) : State γ := ⟨s, false, false, true, fun _ => .idle⟩

def lts (γ : Type) [DecidableEq γ] (lib : Lib) (conv : UInt32) (ds ps : Nat) (block : L4.Block) :
    LTS (State γ) (Ev γ) :=
  .ofFn (fun y => ∃ s₀ s setup, L4.Session.new lib conv ds ps block = .ok s₀ ∧ (∀ c ∈ setup, isSetter c = true) ∧
    L4.Session.calls lib s₀ setup = .ok s ∧ y = initial s) (fun y e => y.next lib e)

/-! ## What a step can do -/

/-- The steps that only move a goroutine. -/
inductive Move : Doing → Doing → Prop where
  | callRead (n : Nat) : Move .idle (.read n)
  | callWrite (v : List Bytes) : Move .idle (.gate v)
  | taken (v : List Bytes) : Move (.gate v) (.gateWait v)
  | check (v : List Bytes) : Move (.check v) (.write v)
  | leaveRead (n : Nat) : Move (.readWait n) .idle
  | leaveGate (v : List Bytes) : Move (.gateWait v) .idle
  | leaveCheck (v : List Bytes) : Move (.check v) .release
  | leaveSpace (v : List Bytes) : Move (.spaceWait v) .release

inductive Step (lib : Lib) (y : State γ) : Ev γ → State γ → Prop where
  | move {e g d d'} : y.doing g = d → Move d d' → Step lib y e (y.go g d')
  | tryRead {e n s b} : y.sess.readLocked n = .ok (s, some b) →
      Step lib y e { y with sess := s, chReadEvent := y.chReadEvent || available s }
  | tryNone {e n s} : y.sess.readLocked n = .ok (s, none) → Step lib y e { y with sess := s }
  | read {e g n s b} : y.doing g = .read n → y.sess.readLocked n = .ok (s, some b) →
      Step lib y e ({ y with sess := s, chReadEvent := y.chReadEvent || available s }.go g .idle)
  | readNone {e g n s} : y.doing g = .read n → y.sess.readLocked n = .ok (s, none) →
      Step lib y e ({ y with sess := s }.go g (.readWait n))
  | readEvent {e g n} : y.doing g = .readWait n → Step lib y e ({ y with chReadEvent := false }.go g (.read n))
  | write {e g v clk s n} : y.doing g = .write v → y.sess.writeBuffersLocked v clk = .ok (s, some n) →
      Step lib y e ({ y with sess := s }.go g .release)
  | writeNone {e g v clk s} : y.doing g = .write v → y.sess.writeBuffersLocked v clk = .ok (s, none) →
      Step lib y e ({ y with sess := s }.go g (.spaceWait v))
  | space {e g v} : y.doing g = .spaceWait v → Step lib y e ({ y with chWriteEvent := false }.go g (.check v))
  | gateEvent {g v} : y.doing g = .gateWait v →
    Step lib y (.event g) ({ y with chWriteEvent := false }.go g (.gateWait v))
  | take {e g v} : y.doing g = .gate v ∨ y.doing g = .gateWait v → y.writeGate = true →
      Step lib y e ({ y with writeGate := false }.go g (.check v))
  | release {e g} : y.doing g = .release → y.writeGate = false → Step lib y e ({ y with writeGate := true }.go g .idle)
  | input {e data clks s got} : y.sess.kcpInput lib data clks = .ok (s, got) →
      Step lib y e (if locks data then y.notify s else { y with sess := s })
  | update {e clk s} : y.sess.update clk = .ok s →
      Step lib y e { y with sess := s, chWriteEvent := y.chWriteEvent || (!y.sess.die && hasRoom s) }

omit [DecidableEq γ] in
theorem read_cases {y : State γ} {n : Nat} {r : State γ × Bool} (h : y.read n = some r) :
    (∃ s b, y.sess.readLocked n = .ok (s, some b) ∧
      r = ({ y with sess := s, chReadEvent := y.chReadEvent || available s }, true)) ∨
      ∃ s, y.sess.readLocked n = .ok (s, none) ∧ r = ({ y with sess := s }, false) := by
  unfold State.read at h
  split at h
  · rename_i s b hread
    cases h
    exact .inl ⟨s, b, hread, rfl⟩
  · rename_i s hread
    cases h
    exact .inr ⟨s, hread, rfl⟩
  · cases h

theorem step_of_next {lib : Lib} {y y' : State γ} {e : Ev γ} (h : y.next lib e = some y') : Step lib y e y' := by
  cases e with
  | callRead g n =>
    simp only [State.next] at h
    split at h
    · rename_i hg
      cases h
      exact .move hg (.callRead n)
    · cases h
  | tryRead n =>
    obtain ⟨r, hr, rfl⟩ := Option.map_eq_some_iff.mp h
    rcases read_cases hr with ⟨s, b, hread, rfl⟩ | ⟨s, hread, rfl⟩
    · exact .tryRead hread
    · exact .tryNone hread
  | callWrite g v =>
    simp only [State.next] at h
    split at h
    · rename_i hg
      split at h
      · cases h
      · cases h
        exact .move hg (.callWrite v)
    · cases h
  | lock g clk =>
    simp only [State.next] at h
    split at h
    · rename_i n hg
      obtain ⟨r, hr, rfl⟩ := Option.map_eq_some_iff.mp h
      rcases read_cases hr with ⟨s, b, hread, rfl⟩ | ⟨s, hread, rfl⟩
      · exact .read hg hread
      · exact .readNone hg hread
    · rename_i v hg
      unfold State.write at h
      split at h
      · rename_i s n hwrite
        cases h
        exact .write hg hwrite
      · rename_i s hwrite
        cases h
        exact .writeNone hg hwrite
      · cases h
    · cases h
  | event g =>
    simp only [State.next] at h
    split at h
    · rename_i n hg
      split at h
      · cases h
        exact .readEvent hg
      · cases h
    · rename_i v hg
      split at h
      · cases h
        exact .gateEvent hg
      · cases h
    · rename_i v hg
      split at h
      · cases h
        exact .space hg
      · cases h
    · cases h
  | gate g =>
    simp only [State.next] at h
    split at h
    · rename_i v hg
      split at h
      · rename_i hgate
        cases h
        exact .take (.inl hg) hgate
      · cases h
        exact .move hg (.taken v)
    · rename_i v hg
      split at h
      · rename_i hgate
        cases h
        exact .take (.inr hg) hgate
      · cases h
    · cases h
  | check g =>
    simp only [State.next] at h
    split at h
    · rename_i v hg
      cases h
      exact .move hg (.check v)
    · cases h
  | leave g =>
    simp only [State.next] at h
    split at h
    · rename_i n hg
      cases h
      exact .move hg (.leaveRead n)
    · rename_i v hg
      cases h
      exact .move hg (.leaveGate v)
    · rename_i v hg
      cases h
      exact .move hg (.leaveCheck v)
    · rename_i v hg
      cases h
      exact .move hg (.leaveSpace v)
    · cases h
  | release g =>
    simp only [State.next] at h
    split at h
    · rename_i hg
      split at h
      · cases h
      · rename_i hgate
        cases h
        exact .release hg (by simpa using hgate)
    · cases h
  | kcpInput data clks =>
    simp only [State.next] at h
    split at h
    · rename_i s got hin
      cases h
      exact .input hin
    · cases h
  | update clk =>
    simp only [State.next] at h
    split at h
    · rename_i s hup
      cases h
      exact .update hup
    · cases h

/-! ## What the critical sections do to the session -/

/-- What sending does to a control block: it takes nothing away. -/
structure Adds (k k' : KCP) : Prop where
  rcvQueue : k'.rcvQueue = k.rcvQueue
  sndWnd : k'.sndWnd = k.sndWnd
  waitSnd : k.waitSnd ≤ k'.waitSnd

theorem Adds.refl (k : KCP) : Adds k k := ⟨rfl, rfl, Nat.le_refl _⟩

theorem Adds.trans {a b c : KCP} (h : Adds a b) (h' : Adds b c) : Adds a c :=
  ⟨h'.rcvQueue.trans h.rcvQueue, h'.sndWnd.trans h.sndWnd, Nat.le_trans h.waitSnd h'.waitSnd⟩

theorem grew_length {stream : Int32} {mss : Nat} {q q' : List Segment} {b : Bytes} (h : L3.Grew stream mss q b q') :
    q.length ≤ q'.length := by
  cases h with
  | fresh => simp
  | filled _ hq => simp [hq]

theorem send_adds {k e : KCP} {b : Bytes} {r : Int} (h : k.send b = .ok (e, r)) : Adds k e := by
  rcases L3.send_cases h with ⟨-, rfl, -⟩ | ⟨-, -, -, q, rfl, hg⟩ | ⟨-, -, -, q, rfl, hg⟩
  · exact Adds.refl e
  · exact ⟨rfl, rfl, Nat.add_le_add_left (grew_length hg) _⟩
  · exact ⟨rfl, rfl, Nat.add_le_add_left (grew_length hg) _⟩

theorem sendPieces_adds {n : Nat} {k k' : KCP} {b : Bytes} (h : L4.Session.sendPieces n k b = .ok k') : Adds k k' := by
  induction n generalizing k b with
  | zero =>
    cases h
    exact Adds.refl _
  | succ n ih =>
    rw [L4.Session.sendPieces] at h
    split at h
    · obtain ⟨⟨k₁, r⟩, h1, h⟩ := Go.bind_ok h
      cases h
      exact send_adds h1
    · obtain ⟨⟨k₁, r⟩, h1, h⟩ := Go.bind_ok h
      exact (send_adds h1).trans (ih h)

theorem sendAll_adds {v : List Bytes} {k k' : KCP}
    (h : v.foldlM (fun k b => L4.Session.sendPieces (b.length + 1) k b) k = .ok k') : Adds k k' := by
  induction v generalizing k with
  | nil =>
    cases h
    exact Adds.refl _
  | cons b v ih =>
    rw [List.foldlM_cons] at h
    obtain ⟨k₁, h1, h⟩ := Go.bind_ok h
    exact (sendPieces_adds h1).trans (ih h)

/-- A flush moves segments from the queue to the buffer. -/
theorem flush_adds {s s' : L4.Session} {ft : FlushType} {clk : Clock} (h : s.flush ft clk = .ok s') :
    Adds s.kcp s'.kcp ∧ s'.input = s.input := by
  have hinput := (L4.Session.flush_operates h).input
  obtain ⟨⟨k, out, nx⟩, hf, hout⟩ := Go.bind_ok h
  obtain ⟨m, hm⟩ := KCP.flush_spec hf
  have hlen := congrArg List.length (L4.Session.flush_queued hm)
  simp only [List.length_map, List.length_append] at hlen
  rw [L4.Session.outputs_kcp hout]
  exact ⟨⟨congrArg Rcv.queue hm.rcv, congrArg Cfg.sndWnd hm.cfg, Nat.le_of_eq hlen.symm⟩, hinput⟩

section
variable {s s' : L4.Session}

theorem available_congr (hinput : s'.input = s.input) (hqueue : s'.kcp.rcvQueue = s.kcp.rcvQueue) :
    available s' = available s := by
  unfold available KCP.peekSize
  rw [hinput, hqueue]

theorem Adds.room (h : Adds s.kcp s'.kcp) (hroom : hasRoom s = false) : hasRoom s' = false := by
  have hwait := h.waitSnd
  unfold hasRoom at hroom ⊢
  rw [h.sndWnd]
  simp only [decide_eq_false_iff_not] at hroom ⊢
  omega

/-- A refused writer found no room; any other write only adds. -/
theorem write_spec {v : List Bytes} {clk : Clock} {r : Option Nat} (h : s.writeBuffersLocked v clk = .ok (s', r)) :
    (r = none → s' = s ∧ hasRoom s = false) ∧ Adds s.kcp s'.kcp ∧ s'.input = s.input := by
  unfold L4.Session.writeBuffersLocked at h
  split at h
  · rename_i hfull
    cases h
    exact ⟨fun _ => ⟨rfl, decide_eq_false (Nat.not_lt.mpr hfull)⟩, Adds.refl _, rfl⟩
  obtain ⟨k, h1, h⟩ := Go.bind_ok h
  have hadds := sendAll_adds h1
  dsimp only at h
  split at h
  · obtain ⟨s₁, h2, h⟩ := Go.bind_ok h
    cases h
    obtain ⟨hflush, hinput⟩ := flush_adds h2
    exact ⟨fun hr => (by cases hr), hadds.trans hflush, hinput⟩
  · cases h
    exact ⟨fun hr => (by cases hr), hadds, rfl⟩

theorem update_spec {clk : Clock} (h : s.update clk = .ok s') : Adds s.kcp s'.kcp ∧ s'.input = s.input := by
  unfold L4.Session.update at h
  split at h
  · cases h
    exact ⟨Adds.refl _, rfl⟩
  · exact flush_adds h

/-- A reader that has to wait found nothing; reading leaves the send side alone. -/
theorem read_spec {n : Nat} {r : Option Bytes} (h : s.readLocked n = .ok (s', r)) :
    (r = none → s' = s ∧ available s = false) ∧ hasRoom s' = hasRoom s := by
  have hrecv {m : Nat} {k : KCP} {x : Int} {d : Bytes} (h : s.kcp.recv m = .ok (k, x, d)) :
      k.waitSnd = s.kcp.waitSnd ∧ k.sndWnd = s.kcp.sndWnd := by
    obtain ⟨hsnd, hcfg, -, -⟩ := KCP.recv_rest h
    have hqueue : k.sndQueue = s.kcp.sndQueue := congrArg Snd.queue hsnd
    have hbuf := congrArg (fun v => v.buf.length) hsnd
    simp only [KCP.snd, List.length_map] at hbuf
    exact ⟨by rw [KCP.waitSnd, KCP.waitSnd, hqueue, hbuf], congrArg Cfg.sndWnd hcfg⟩
  unfold L4.Session.readLocked at h
  split at h
  · cases h
    exact ⟨fun hr => (by cases hr), rfl⟩
  rename_i hinput
  split at h
  · rename_i hpeek
    cases h
    refine ⟨fun _ => ⟨rfl, ?_⟩, rfl⟩
    simp only [ne_eq, not_not] at hinput
    simp [available, hinput, Int.not_lt.mpr hpeek]
  split at h
  · obtain ⟨⟨k, x, d⟩, h1, h⟩ := Go.bind_ok h
    cases h
    obtain ⟨hwait, hwnd⟩ := hrecv h1
    exact ⟨fun hr => (by cases hr), by simp only [hasRoom, hwait, hwnd]⟩
  · obtain ⟨⟨k, x, d⟩, h1, h⟩ := Go.bind_ok h
    cases h
    obtain ⟨hwait, hwnd⟩ := hrecv h1
    exact ⟨fun hr => (by cases hr), by simp only [hasRoom, hwait, hwnd]⟩

/-- Without the lock, nothing changes. -/
theorem kcpInput_spec {lib : Lib} {data : Bytes} {clks : Nat → Clock} {got : List L4.Reached}
    (h : s.kcpInput lib data clks = .ok (s', got)) : s'.input = s.input ∧ (locks data = false → s' = s) := by
  refine ⟨(L4.Session.kcpInput_operates h).input, fun hlocks => ?_⟩
  unfold L4.Session.kcpInput at h
  unfold locks at hlocks
  split at h
  · cases h
  split at h
  · rename_i hfec
    rw [if_pos hfec, decide_eq_false_iff_not] at hlocks
    rw [L4.Session.fecInput, if_pos (Nat.not_le.mp hlocks)] at h
    cases h
    rfl
  rename_i hfec
  rw [if_neg hfec, decide_eq_false_iff_not, not_not] at hlocks
  rw [if_pos hlocks] at h
  split at h
  · split at h
    · cases h
    · cases h
      rfl
  · cases h
    rfl

end

/-! ## Readers -/

/-- In `Read`. -/
def Doing.reads : Doing → Bool
  | .read _ => true
  | .readWait _ => true
  | _ => false

/-- Blocked in the `select` of `Read`. -/
def Doing.readBlocked : Doing → Bool
  | .readWait _ => true
  | _ => false

namespace State

variable {y : State γ} {g h : γ} {d : Doing}

@[simp] theorem go_self (y : State γ) (g : γ) (d : Doing) : (y.go g d).doing g = d := Function.update_self ..

theorem go_other (hne : h ≠ g) : (y.go g d).doing h = y.doing h := Function.update_of_ne hne ..

end State

/-- Data that is available has its token, or a reader on its way. -/
def Served (y : State γ) : Prop := available y.sess = true → y.chReadEvent = true ∨ ∃ g n, y.doing g = .read n

section
variable {y : State γ} {g : γ} {d d' : Doing}

/-- The readers on their way stay so when another goroutine moves. -/
theorem Served.go (h : Served y) (hg : y.doing g = d) (hd : ∀ n, d ≠ .read n) (d' : Doing) : Served (y.go g d') := by
  intro hav
  refine (h hav).imp_right ?_
  rintro ⟨r, n, hr⟩
  refine ⟨r, n, ?_⟩
  rw [State.go_other (by rintro rfl; exact hd n (hg.symm.trans hr))]
  exact hr

section
omit [DecidableEq γ]

/-- A section that leaves the data as it is. -/
theorem Served.data (h : Served y) {s : L4.Session} (hav : available s = available y.sess) {w b : Bool} :
    Served { y with sess := s, chWriteEvent := w, writeGate := b } := fun hs => h (hav ▸ hs)

/-- A reader's section: it notifies if there is data left. -/
theorem served_notify (y : State γ) (s : L4.Session) (f : γ → Doing) :
    Served { y with sess := s, chReadEvent := y.chReadEvent || available s, doing := f } :=
  fun hav => .inl (Bool.or_eq_true_iff.mpr (.inr hav))

theorem served_empty (hav : available y.sess = false) : Served y := by
  intro hs
  rw [hs] at hav
  cases hav

/-- `kcpInput` notifies of what it adds. -/
theorem Served.notify (h : Served y) {s : L4.Session} (hinput : s.input = y.sess.input) : Served (y.notify s) := by
  intro hav
  have hav : available s = true := hav
  rcases Bool.or_eq_true_iff.mp hav with hbytes | hpeek
  · have hbefore : available y.sess = true := by
      rw [hinput] at hbytes
      exact Bool.or_eq_true_iff.mpr (.inl hbytes)
    rcases h hbefore with htoken | hreader
    · exact .inl (Bool.or_eq_true_iff.mpr (.inl htoken))
    · exact .inr hreader
  · exact .inl (Bool.or_eq_true_iff.mpr (.inr hpeek))

end

end

theorem served_step {lib : Lib} {y y' : State γ} {e : Ev γ} (h : Served y) (hstep : Step lib y e y') : Served y' := by
  cases hstep with
  | @move _ g d d' hg hmove => exact h.go hg (by cases hmove <;> simp) d'
  | tryRead hread => exact served_notify y _ _
  | tryNone hread =>
    obtain ⟨rfl, -⟩ := (read_spec hread).1 rfl
    exact h
  | read hg hread => exact served_notify y _ _
  | readNone hg hread =>
    obtain ⟨rfl, hav⟩ := (read_spec hread).1 rfl
    exact served_empty hav
  | @readEvent _ g n hg => exact fun _ => .inr ⟨g, n, State.go_self ..⟩
  | write hg hwrite =>
    obtain ⟨-, hadds, hinput⟩ := write_spec hwrite
    exact (h.data (available_congr hinput hadds.rcvQueue)).go hg (by simp) _
  | writeNone hg hwrite =>
    obtain ⟨-, hadds, hinput⟩ := write_spec hwrite
    exact (h.data (available_congr hinput hadds.rcvQueue)).go hg (by simp) _
  | space hg => exact (h.data rfl).go hg (by simp) _
  | gateEvent hg => exact (h.data rfl).go hg (by simp) _
  | take hg hgate =>
    rcases hg with hg | hg
    · exact (h.data rfl).go hg (by simp) _
    · exact (h.data rfl).go hg (by simp) _
  | release hg hgate => exact (h.data rfl).go hg (by simp) _
  | input hin =>
    obtain ⟨hinput, hsame⟩ := kcpInput_spec hin
    split
    · exact h.notify hinput
    · rename_i hlocks
      rw [hsame (by simpa using hlocks)]
      exact h
  | update hup =>
    obtain ⟨hadds, hinput⟩ := update_spec hup
    exact h.data (available_congr hinput hadds.rcvQueue)

/-! ## The start -/

theorem setter_data {lib : Lib} {s s' : L4.Session} {c : L4.Session.Call} {o : L4.Session.Shown}
    (hc : isSetter c = true)
    (h : s.step lib c = .ok (s', o)) : available s' = available s := by
  cases c with
  | setMtu mtu =>
    obtain ⟨⟨s₁, b⟩, h1, h⟩ := Go.bind_ok h
    cases h
    obtain ⟨⟨k, r⟩, h2, h1⟩ := Go.bind_ok h1
    cases h1
    exact available_congr rfl (congrArg Rcv.queue (KCP.setMtu_rest h2).1)
  | setNoDelay a b c d =>
    cases h
    exact available_congr rfl (congrArg Rcv.queue (KCP.noDelay_rest s.kcp a b c d).1)
  | setWindowSize a b =>
    cases h
    exact available_congr rfl (KCP.wndSize_rest s.kcp a b).2.2.2.2.1
  | setStreamMode | setWriteDelay | setACKNoDelay | setDUP | setOOBHandler =>
    cases h
    rfl
  | packetInput | write | read | update | sendOOB | postProcess | close | resetRTO => cases hc

theorem setup_data {lib : Lib} {cs : List L4.Session.Call} : ∀ {s s' : L4.Session}, (∀ c ∈ cs, isSetter c = true) →
    L4.Session.calls lib s cs = .ok s' → available s' = available s := by
  induction cs with
  | nil =>
    intro s s' _ h
    cases h
    rfl
  | cons c cs ih =>
    intro s s' hcs h
    obtain ⟨⟨s₁, o⟩, h1, h⟩ := Go.bind_ok h
    rw [ih (fun c hc => hcs c (List.mem_cons_of_mem _ hc)) h, setter_data (hcs c List.mem_cons_self) h1]

theorem new_empty {lib : Lib} {conv : UInt32} {ds ps : Nat} {block : L4.Block} {s : L4.Session}
    (h : L4.Session.new lib conv ds ps block = .ok s) : available s = false := by
  obtain ⟨k, r, heq, hmtu, -⟩ := L4.Session.new_eq lib conv ds ps block
  rw [heq] at h
  split at h
  · cases h
    have hqueue : k.rcvQueue = [] := congrArg Rcv.queue (KCP.setMtu_rest hmtu).1
    simp [available, KCP.peekSize, hqueue, L4.Session.blank]
  · cases h

section
variable {lib : Lib} {conv : UInt32} {ds ps : Nat} {block : L4.Block}

theorem served_inductive : (lts γ lib conv ds ps block).Inductive Served where
  init := by
    rintro y ⟨s₀, s, setup, hnew, hsetup, hcalls, rfl⟩
    exact served_empty ((setup_data hsetup hcalls).trans (new_empty hnew))
  step := fun y e y' h hstep => served_step h (step_of_next hstep)

/-- **No read wakeup is lost.** In no state there is data, the event channel is
empty, and every reader is blocked. -/
theorem read_wakeup {y : State γ} (hr : (lts γ lib conv ds ps block).Reachable y) :
    ¬ (available y.sess = true ∧ y.chReadEvent = false ∧ ∀ g, (y.doing g).reads = true →
      (y.doing g).readBlocked = true) := by
  rintro ⟨hav, htoken, hblocked⟩
  rcases served_inductive.reachable y hr hav with h | ⟨g, n, hg⟩
  · rw [h] at htoken
    cases htoken
  · have hg' := hblocked g
    rw [hg] at hg'
    cases hg' rfl

end

/-! ## Runs that compute -/

def started (setup : List L4.Session.Call) : Go L4.Session := do
  let s ← L4.Session.new xors 7 0 0 .nil
  L4.Session.calls xors s setup

/-- The state after the events, in a session that is configured by `setup`. -/
def played (g : Ev Nat → Bool) (setup : List L4.Session.Call) (es : List (Ev Nat)) : Option (State Nat) :=
  match started setup with
  | .ok s => LTS.play (fun y e => y.next xors e) (fun _ e => g e) (initial s) es
  | .error _ => none

theorem played_reachable {g : Ev Nat → Bool} {A : State Nat → Ev Nat → Prop} (hg : ∀ y e, g e = true → A y e)
    {setup : List L4.Session.Call} {es : List (Ev Nat)} {p : State Nat → Bool} (hsetup : ∀ c ∈ setup, isSetter c = true)
    (h : (played g setup es).any p = true) :
    ∃ y, ((lts Nat xors 7 0 0 .nil).restrict fun y e _ => A y e).Reachable y ∧ p y = true := by
  unfold played at h
  split at h
  · rename_i s hs
    obtain ⟨s₀, hnew, hcalls⟩ := Go.bind_ok hs
    obtain ⟨y, hy, hp⟩ := Option.any_eq_true _ _ |>.mp h
    have hrun : ((lts Nat xors 7 0 0 .nil).restrict fun y e _ => A y e).Run (initial s) es y :=
      LTS.play_run (M := (lts Nat xors 7 0 0 .nil).restrict fun y e _ => A y e)
        (fun y e _ he hstep => ⟨hstep, hg y e he⟩) hy
    exact ⟨y, ⟨initial s, es, ⟨s₀, s, setup, hnew, hsetup, hcalls, rfl⟩, hrun⟩, hp⟩
  · cases h

/-- A reader that was woken for the two bytes of a packet, before it reads. -/
theorem read_wakeup_woken : ∃ y : State Nat, (lts Nat xors 7 0 0 .nil).Reachable y ∧ available y.sess = true ∧
    y.chReadEvent = false ∧ ∃ g, (y.doing g).reads = true ∧ (y.doing g).readBlocked = false := by
  obtain ⟨y, hr, hp⟩ := @played_reachable (fun _ => true) (fun _ _ => True) (fun _ _ _ => trivial) []
    [.callRead 0 1, .lock 0 fun _ => 0,
      .kcpInput (Segment.wire { conv := 7, cmd := IKCP_CMD_PUSH, data := some [65, 66] }) (fun _ _ => 0), .event 0]
    (fun y => available y.sess && !y.chReadEvent) (by simp) (by decide +kernel)
  rw [Bool.and_eq_true, Bool.not_eq_true'] at hp
  have hr := hr.of_restrict
  have hready := read_wakeup hr
  simp only [hp, true_and, not_forall] at hready
  obtain ⟨g, hreads, hblocked⟩ := hready
  exact ⟨y, hr, hp.1, hp.2, g, hreads, by simpa using hblocked⟩

/-! ## Writers -/

/-- The goroutine has the gate. -/
def Doing.holds : Doing → Bool
  | .check _ => true
  | .write _ => true
  | .spaceWait _ => true
  | .release => true
  | _ => false

/-- At most one goroutine has the gate, and the channel is empty exactly while
one has it. -/
def Gated (y : State γ) : Prop := Claimed (!y.writeGate) fun g => (y.doing g).holds = true

/-- A holder that waits for space has its token, or there is none. -/
def Woken (y : State γ) : Prop := ∀ g v, y.doing g = .spaceWait v → y.chWriteEvent = true ∨ hasRoom y.sess = false

/-- The holder of the gate is blocked, with no token, and there is room. -/
def Stuck (y : State γ) : Prop := (∃ g v, y.doing g = .spaceWait v) ∧ y.chWriteEvent = false ∧ hasRoom y.sess = true

/-- A goroutine that waits for the gate receives the token while the holder
is blocked and there is room. -/
def Steals (y : State γ) (e : Ev γ) : Prop :=
  ∃ g v, e = .event g ∧ y.doing g = .gateWait v ∧ (∃ h w, y.doing h = .spaceWait w) ∧ hasRoom y.sess = true

section
variable {y y' : State γ} {g : γ} {d : Doing}

theorem holds_go (y : State γ) (g : γ) (d : Doing) (x : γ) :
    ((y.go g d).doing x).holds = true ↔ if x = g then d.holds = true else (y.doing x).holds = true := by
  by_cases hx : x = g
  · rw [hx, State.go_self, if_pos rfl]
  · rw [State.go_other hx, if_neg hx]

/-- A step that neither takes nor gives back the gate. -/
theorem Gated.keep (h : Gated y) (hd : d.holds = (y.doing g).holds) {s : L4.Session} {r w : Bool} :
    Gated ({ y with sess := s, chReadEvent := r, chWriteEvent := w }.go g d) := by
  refine Claimed.congr h fun x => (holds_go _ g d x).trans ?_
  by_cases hx : x = g
  · rw [if_pos hx, hd, hx]
  · rw [if_neg hx]

theorem Gated.take (h : Gated y) (hgate : y.writeGate = true) (hd : d.holds = true) :
    Gated ({ y with writeGate := false }.go g d) := by
  have h : Claimed (!y.writeGate) fun g => (y.doing g).holds = true := h
  rw [hgate] at h
  refine h.claim (a := g) fun x => (holds_go _ g d x).trans ?_
  by_cases hx : x = g
  · simp [hx, hd]
  · simp [hx]

theorem Gated.giveBack (h : Gated y) (hg : (y.doing g).holds = true) (hd : d.holds = false) :
    Gated ({ y with writeGate := true }.go g d) := by
  refine Claimed.release h hg fun x => (holds_go _ g d x).trans ?_
  by_cases hx : x = g
  · simp [hx, hd]
  · simp [hx]

theorem Move.holds {d d' : Doing} (h : Move d d') : d'.holds = d.holds := by
  cases h <;> rfl

theorem gated_step {lib : Lib} {e : Ev γ} (h : Gated y) (hstep : Step lib y e y') : Gated y' := by
  cases hstep with
  | move hg hmove => exact h.keep (by rw [hg]; exact hmove.holds)
  | tryRead | tryNone | update => exact h
  | read hg _ => exact h.keep (by rw [hg]; rfl)
  | readNone hg _ => exact h.keep (by rw [hg]; rfl)
  | readEvent hg => exact h.keep (by rw [hg]; rfl)
  | write hg _ => exact h.keep (by rw [hg]; rfl)
  | writeNone hg _ => exact h.keep (by rw [hg]; rfl)
  | space hg => exact h.keep (by rw [hg]; rfl)
  | gateEvent hg => exact h.keep (by rw [hg])
  | take hg hgate => exact h.take hgate rfl
  | release hg hgate => exact h.giveBack (by rw [hg]; rfl) rfl
  | input _ =>
    split
    · exact h
    · exact h

/-- A goroutine that moves without beginning to wait for space. -/
theorem Woken.go (h : Woken y) (hd : ∀ v, d ≠ .spaceWait v) : Woken (y.go g d) := by
  intro x v hx
  by_cases hxg : x = g
  · rw [hxg, State.go_self] at hx
    exact absurd hx (hd v)
  · rw [State.go_other hxg] at hx
    exact h x v hx

omit [DecidableEq γ] in
/-- A section that gives no room, or notifies. -/
theorem Woken.section (h : Woken y) {s : L4.Session} {r w b : Bool}
    (hw : y.chWriteEvent = true ∨ hasRoom y.sess = false → w = true ∨ hasRoom s = false) :
    Woken { y with sess := s, chReadEvent := r, chWriteEvent := w, writeGate := b } :=
  fun g v hg => hw (h g v hg)

theorem woken_step {lib : Lib} {e : Ev γ} (hgate : Gated y) (h : Woken y) (hstep : Step lib y e y')
    (hsteals : ¬ Steals y e) :
    Woken y' := by
  cases hstep with
  | move hg hmove => exact h.go (by cases hmove <;> simp)
  | tryRead hread => exact h.section (by rw [(read_spec hread).2]; exact id)
  | tryNone hread => exact h.section (by rw [(read_spec hread).2]; exact id)
  | read hg hread => exact (h.section (by rw [(read_spec hread).2]; exact id)).go (by simp)
  | readNone hg hread => exact (h.section (by rw [(read_spec hread).2]; exact id)).go (by simp)
  | readEvent hg => exact (h.section id).go (by simp)
  | write hg hwrite => exact (h.section (Or.imp_right (write_spec hwrite).2.1.room)).go (by simp)
  | writeNone hg hwrite =>
    -- the writer found no room, and nobody else changed that
    obtain ⟨rfl, hroom⟩ := (write_spec hwrite).1 rfl
    exact fun _ _ _ => .inr hroom
  | @space _ g v hg =>
    intro x w hx
    by_cases hxg : x = g
    · rw [hxg, State.go_self] at hx
      cases hx
    · rw [State.go_other hxg] at hx
      refine absurd (hgate.unique x g ?_ ?_) hxg
      · rw [show y.doing x = .spaceWait w from hx]
        rfl
      · rw [hg]
        rfl
  | @gateEvent g v hg =>
    intro x w hx
    by_cases hxg : x = g
    · rw [hxg, State.go_self] at hx
      cases hx
    · rw [State.go_other hxg] at hx
      refine .inr (Bool.eq_false_iff.mpr fun hroom => hsteals ?_)
      exact ⟨g, v, rfl, hg, ⟨x, w, hx⟩, hroom⟩
  | take hg _ => exact (h.section id).go (by simp)
  | release hg _ => exact (h.section id).go (by simp)
  | @input _ data clks s got hin =>
    split
    · refine h.section fun _ => ?_
      cases hroom : hasRoom s with
      | true => exact .inl (Bool.or_true _)
      | false => exact .inr rfl
    · rename_i hlocks
      rw [(kcpInput_spec hin).2 (by simpa using hlocks)]
      exact h
  | update hup =>
    refine h.section fun hbefore => ?_
    rcases hbefore with htoken | hroom
    · exact .inl (Bool.or_eq_true_iff.mpr (.inl htoken))
    · exact .inr ((update_spec hup).1.room hroom)

end

section
variable {lib : Lib} {conv : UInt32} {ds ps : Nat} {block : L4.Block}

theorem woken_inductive :
    ((lts γ lib conv ds ps block).restrict fun y e _ => ¬ Steals y e).Inductive fun y => Gated y ∧ Woken y where
  init := by
    rintro y ⟨s₀, s, setup, -, -, -, rfl⟩
    refine ⟨?_, fun g v hg => nomatch hg⟩
    exact Claimed.none.congr fun x => by simp [initial, Doing.holds]
  step := by
    rintro y e y' ⟨hgate, h⟩ ⟨hstep, hsteals⟩
    have hstep := step_of_next hstep
    exact ⟨gated_step hgate hstep, woken_step hgate h hstep hsteals⟩

/-- **When a write wakeup is lost.** As long as no goroutine that waits for the
gate takes the token from a holder that has room, no holder is stuck; each
such step leaves it stuck. -/
theorem write_wakeup :
    (∀ y, ((lts γ lib conv ds ps block).restrict fun y e _ => ¬ Steals y e).Reachable y → ¬ Stuck y) ∧
    ∀ y e y', (lts γ lib conv ds ps block).step y e y' → Steals y e → Stuck y' := by
  refine ⟨?_, ?_⟩
  · rintro y hr ⟨⟨g, v, hg⟩, htoken, hroom⟩
    rcases (woken_inductive.reachable y hr).2 g v hg with h | h
    · rw [h] at htoken
      cases htoken
    · rw [h] at hroom
      cases hroom
  · rintro y e y' hstep ⟨g, v, rfl, hg, ⟨x, w, hx⟩, hroom⟩
    have hstep : y.next lib (.event g) = some y' := hstep
    simp only [State.next, hg] at hstep
    split at hstep
    · cases hstep
      have hxg : x ≠ g := by
        rintro rfl
        rw [hx] at hg
        cases hg
      exact ⟨⟨x, w, (State.go_other hxg).trans hx⟩, rfl, hroom⟩
    · cases hstep

end

/-- One goroutine fills a window of one segment and waits with a second write;
another waits for the gate; then the segment is acknowledged. -/
def contended : List (Ev Nat) :=
  [.callWrite 0 [[1]], .gate 0, .check 0, .lock 0 fun _ => 0, .release 0,
    .callWrite 0 [[2]], .gate 0, .callWrite 1 [[3]], .gate 1, .check 0, .lock 0 fun _ => 0,
    .kcpInput (Segment.wire { conv := 7, cmd := IKCP_CMD_ACK, wnd := 128, una := 1 }) (fun _ _ => 0)]

/-- A window of one segment, and no congestion window. -/
def narrow : List L4.Session.Call := [.setWindowSize 1 0, .setNoDelay (-1) (-1) (-1) 1]

theorem narrow_setters : ∀ c ∈ narrow, isSetter c = true := by simp [narrow, isSetter]

def noEvent : Ev Nat → Bool
  | .event _ => false
  | _ => true

theorem noEvent_steals (y : State Nat) (e : Ev Nat) (h : noEvent e = true) : ¬ Steals y e := by
  rintro ⟨g, v, rfl, -⟩
  cases h

theorem write_wakeup_contended : ∃ y y' : State Nat,
    ((lts Nat xors 7 0 0 .nil).restrict fun y e _ => ¬ Steals y e).Reachable y ∧ ¬ Stuck y ∧
      (lts Nat xors 7 0 0 .nil).step y (.event 1) y' ∧ Stuck y' := by
  obtain ⟨y, hr, hp⟩ := @played_reachable noEvent _ noEvent_steals narrow contended
    (fun y => decide (y.doing 0 = .spaceWait [[2]]) &&
      (decide (y.doing 1 = .gateWait [[3]]) && (y.chWriteEvent && hasRoom y.sess)))
    narrow_setters (by decide +kernel)
  rw [Bool.and_eq_true, Bool.and_eq_true, Bool.and_eq_true, decide_eq_true_eq, decide_eq_true_eq] at hp
  obtain ⟨h0, h1, htoken, hroom⟩ := hp
  have hstep : (lts Nat xors 7 0 0 .nil).step y (.event 1)
      ({ y with chWriteEvent := false }.go 1 (.gateWait [[3]])) := by
    show y.next xors (.event 1) = _
    simp only [State.next, h1, htoken, if_true]
  exact ⟨y, _, hr, write_wakeup.1 y hr, hstep, write_wakeup.2 y _ _ hstep ⟨1, _, rfl, h1, ⟨0, _, h0⟩, hroom⟩⟩

/-- **A write wakeup is lost.** -/
theorem token_stolen : ∃ y : State Nat, (lts Nat xors 7 0 0 .nil).Reachable y ∧ Stuck y := by
  obtain ⟨y, hr, hp⟩ := @played_reachable (fun _ => true) (fun _ _ => True)
    (fun _ _ _ => trivial) narrow (contended ++ [.event 1])
    (fun y => decide (y.doing 0 = .spaceWait [[2]]) && (!y.chWriteEvent && hasRoom y.sess)) narrow_setters
      (by decide +kernel)
  rw [Bool.and_eq_true, Bool.and_eq_true, Bool.not_eq_true', decide_eq_true_eq] at hp
  exact ⟨y, hr.of_restrict, ⟨0, _, hp.1⟩, hp.2⟩

end KcpGo.L5.Waiting
