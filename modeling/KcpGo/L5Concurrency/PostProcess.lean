import KcpGo.Core.Bytes
import KcpGo.Core.LTS
import KcpGo.L2Machine.Queues
import Mathlib.Logic.Function.Basic

/-!
# Post-processing: sessions, producers and the shared workers

Packets that a session puts out wait in its `postQueue`; a process-wide set
of worker goroutines (src/postprocess.go) takes claimed sessions from
`ppQueue` and turns their packets into datagrams.

The state is that of any sessions `σ`, workers `ι` and other goroutines `γ`
(the callers of a session's methods, its updater and its reader). One step is
one operation on a queue under its mutex, one atomic operation on
`ppRunning`, one read of `die`, one critical section of `Close`, or one
datagram written to the socket; what a goroutine does with its own data
belongs to the step before. The goroutines take their steps in any order.

* Producers: a goroutine that holds `s.mu` puts out packets, each by reading
  `die`, `push`, and `kickPostProcess` when the push succeeded.
* `Close`: the final flush and `close(s.die)` under `s.mu`, then the gate
  `ppClosing`, then the drain of `postQueue`.
* Workers: `postProcessWorker` with `postProcess`, `flushTx`, `sendTx` and
  `finishPostProcess`.

Left open, so that every choice is covered: whether the FEC encoder produces
the parity of a full group (the time since the last packet, a codec error),
whether a write fails, what `sync.Pool` returns, and the capacity that
`append` picks. Buffers are followed by their origin: a datagram is the
original, a copy or a parity of requests. The counters of snmp.go, the trace
log and the byte count it prints are left out.

`log` is ghost state: the requests `postProcess` took, the datagrams written
and the completed calls of `Close`, newest first.
-/
namespace KcpGo.L5

open KcpGo.L2

/-- mirrors src/sess.go:96 -/
def maxBatchSize : Nat := 64

/-- mirrors src/postprocess.go:34 -/
def ppBudget : Nat := 4 * maxBatchSize

/-- mirrors src/sess.go:113-116 (`sendRequest`) -/
structure SendRequest where
  buffer : Bytes
  oob : Bool
  deriving DecidableEq, Repr

/-! ## Datagrams -/

/-- What a datagram was built from. -/
inductive Content where
  | orig (r : SendRequest)
  | dup (r : SendRequest)
  | parity (group : List SendRequest)
  deriving DecidableEq, Repr

def Content.requests : Content → List SendRequest
  | .orig r => [r]
  | .dup r => [r]
  | .parity group => group

/-- An entry of `txqueue`. `src` is the session that built it, to whose
remote address it goes. -/
structure Message (σ : Type) where
  src : σ
  content : Content
  deriving DecidableEq, Repr

/-- `shards` are the packets of the current group, `shardCache[:shardCount]`.
mirrors src/fec.go:360-381 (`fecEncoder`) -/
structure FecEncoder where
  dataShards : Nat
  parityShards : Nat
  shards : List SendRequest
  deriving DecidableEq, Repr

/-- The groups whose parity is returned, one for each parity packet; `skip`:
the packets are too far apart, or the codec failed.
mirrors src/fec.go:412-493 (`encode`) -/
def FecEncoder.encode (enc : FecEncoder) (skip : Bool) (r : SendRequest) : List (List SendRequest) × FecEncoder :=
  let shards := enc.shards ++ [r]
  if shards.length ≠ enc.dataShards then ([], { enc with shards := shards })
  else (if skip then [] else List.replicate enc.parityShards shards, { enc with shards := [] })

/-! ## State -/

/-- `sync.Once`. -/
inductive Once where
  | fresh | running | done
  deriving DecidableEq, Repr

/-- The fields of `UDPSession` that the post-processing uses; `die` is the
closed channel, `mu` and `ppSendMu` name the holder.
mirrors src/sess.go:123-185 (`UDPSession`) -/
structure Session (ι γ : Type) where
  postQueue : SendQueue SendRequest
  ppRunning : Bool
  die : Bool
  dieOnce : Once
  mu : Option γ
  ppSendMu : Option ι
  ppClosing : Bool
  dup : Int
  fecEncoder : Option FecEncoder

/-- Where a goroutine that uses sessions is. `c`: inside `Close`. -/
inductive App (σ : Type) where
  | idle
  -- in `Close`, before `s.mu.Lock()`
  | closing (s : σ)
  -- holds `s.mu`
  | locked (s : σ) (c : Bool)
  -- found `die` open, before `postQueue.push`
  | output (s : σ) (c : Bool) (r : SendRequest)
  -- pushed, before the claim of `kickPostProcess`
  | pushed (s : σ) (c : Bool)
  -- claimed, before `ppEnqueue`
  | claimed (s : σ) (c : Bool)
  -- in `Close`, `die` is closed, before `ppClosing` is set
  | gate (s : σ)
  -- in `Close`, in `discardPostProcess`
  | drain (s : σ)
  deriving DecidableEq, Repr

/-- Where a worker is. `n` counts the finished rounds of the loop of
`postProcess`; `k` is the round that called `flushTx`, `none` after the loop;
`u`: the caller uses the result of `finishPostProcess`. -/
inductive Phase (σ : Type) where
  -- before the dequeue
  | wait
  -- dequeued, before `isClosed`
  | took (s : σ)
  -- `postProcess`, before the `pop` of the next round
  | loop (s : σ) (n : Nat)
  -- the packet's datagrams are in the batch, before `postQueue.len()`
  | built (s : σ) (n : Nat)
  -- `flushTx`, before `isClosed`
  | flush (s : σ) (k : Option Nat)
  -- `sendTx`, before `ppSendMu.Lock()`
  | send (s : σ) (k : Option Nat)
  -- `tx`, with the messages still to write
  | tx (s : σ) (k : Option Nat) (msgs : List (Message σ))
  -- the loop is done, before the last `postQueue.len()`
  | recheck (s : σ)
  -- before `ppEnqueue`
  | requeue (s : σ)
  -- `finishPostProcess`, before `ppRunning.Store(false)`
  | store (s : σ) (u : Bool)
  -- `finishPostProcess`, before `isClosed`
  | stored (s : σ) (u : Bool)
  -- `finishPostProcess`, in `discardPostProcess`
  | discard (s : σ)
  -- `finishPostProcess`, before `postQueue.len()`
  | relook (s : σ) (u : Bool)
  -- `finishPostProcess`, before the claim
  | reclaim (s : σ) (u : Bool)
  deriving DecidableEq, Repr

/-- A worker goroutine: not yet running, or running with its `ppWorker`. -/
inductive Worker (σ : Type) where
  | start
  | run (w : Nat) (p : Phase σ)
  deriving DecidableEq, Repr

inductive Act (σ : Type) where
  -- `postProcess` took `r` from the `postQueue` of `s`
  | pop (s : σ) (r : SendRequest)
  -- the `tx` of `s` wrote `m`
  | tx (s : σ) (m : Message σ)
  -- `s.Close` is done
  | closed (s : σ)
  deriving DecidableEq, Repr

/-- `batch w` is the `txqueue` of the `ppWorker` `w`; `made` counts those
that `New` made; `pool` holds those that were put back. -/
structure State (σ ι γ : Type) where
  sess : σ → Session ι γ
  app : γ → App σ
  worker : ι → Worker σ
  ppQueue : PPQueue σ
  started : Bool
  pool : List Nat
  made : Nat
  batch : Nat → List (Message σ)
  log : List (Act σ)

variable {σ ι γ : Type} [DecidableEq σ] [DecidableEq ι] [DecidableEq γ]

namespace State

def setSess (y : State σ ι γ) (s : σ) (x : Session ι γ) : State σ ι γ :=
  { y with sess := Function.update y.sess s x }

def goApp (y : State σ ι γ) (g : γ) (p : App σ) : State σ ι γ :=
  { y with app := Function.update y.app g p }

def goWorker (y : State σ ι γ) (i : ι) (w : Nat) (p : Phase σ) : State σ ι γ :=
  { y with worker := Function.update y.worker i (.run w p) }

def setBatch (y : State σ ι γ) (w : Nat) (b : List (Message σ)) : State σ ι γ :=
  { y with batch := Function.update y.batch w b }

def record (y : State σ ι γ) (a : Act σ) : State σ ι γ := { y with log := a :: y.log }

/-- mirrors src/postprocess.go:64-72 (`recycle`) -/
def recycle (y : State σ ι γ) (w : Nat) : State σ ι γ := y.setBatch w []

/-- The first call starts the workers.
mirrors src/postprocess.go:157-178 (`ppEnqueue`, `startPostProcessWorkers`) -/
def ppEnqueue (y : State σ ι γ) (s : σ) : State σ ι γ :=
  { y with ppQueue := PPQueue.enqueue y.ppQueue s, started := true }

end State

/-! ## Workers -/

/-- Resolves what the code does not decide: the `ppWorker` that `Get` returns
(`none`: a new one), whether a full FEC group goes without parity, whether a
write fails. -/
structure Choice where
  pick : Option Nat
  skip : Bool
  fail : Bool
  deriving DecidableEq, Repr

/-- The original, the copies and the parities of one packet.
mirrors src/sess.go:819-844 (`postProcess`, stage 3) -/
def datagrams (s : σ) (dup : Int) (r : SendRequest) (ecc : List (List SendRequest)) : List (Message σ) :=
  ⟨s, .orig r⟩ :: (List.replicate dup.toNat ⟨s, .dup r⟩ ++ ecc.map fun group => ⟨s, .parity group⟩)

/-- The groups behind the parities that go out with `r`, and the encoder
after it. mirrors src/sess.go:773-779 (`postProcess`, stage 1) -/
def fecStage (enc : Option FecEncoder) (skip : Bool) (r : SendRequest) : List (List SendRequest) × Option FecEncoder :=
  match enc with
  | none => ([], none)
  | some enc => if r.oob then ([], some enc) else ((enc.encode skip r).1, some (enc.encode skip r).2)

/-- Where `postProcess` goes on after a `flushTx` that returned false. -/
def Phase.resume (s : σ) : Option Nat → Phase σ
  | some n => .loop s (n + 1)
  | none => .recheck s

namespace State

/-- `ppWorkers.Get()`.
mirrors src/postprocess.go:75-80,184 (`ppWorkers`, `postProcessWorker`) -/
def get (y : State σ ι γ) (i : ι) : Option Nat → Option (State σ ι γ)
  | none => some (({ y with made := y.made + 1 }.setBatch y.made []).goWorker i y.made .wait)
  | some w => if w ∈ y.pool then some ({ y with pool := y.pool.erase w }.goWorker i w .wait) else none

/-- The body of `postProcess`'s loop up to the batch.
mirrors src/sess.go:762-844 (`postProcess`) -/
def popBuild (y : State σ ι γ) (i : ι) (w : Nat) (s : σ) (n : Nat) (skip : Bool) : State σ ι γ :=
  let x := y.sess s
  match x.postQueue.pop with
  | (none, _) => y.goWorker i w (.store s true)
  | (some r, pq) =>
    let ecc := fecStage x.fecEncoder skip r
    (((y.setSess s { x with postQueue := pq, fecEncoder := ecc.2 }).setBatch w
      (y.batch w ++ datagrams s x.dup r ecc.1)).record (.pop s r)).goWorker i w (.built s n)

/-- mirrors src/postprocess.go:84-92 (`flushTx`); a closed session's batch is
dropped and `w` put into the pool, and the caller returns true. -/
def flushTx (y : State σ ι γ) (i : ι) (w : Nat) (s : σ) (k : Option Nat) : State σ ι γ :=
  if (y.sess s).die then ({ y.recycle w with pool := w :: y.pool }).goWorker i w (.requeue s)
  else y.goWorker i w (.send s k)

/-- Taking `ppSendMu` and the test of the gate.
mirrors src/postprocess.go:98-105 (`sendTx`) -/
def sendTx (y : State σ ι γ) (i : ι) (w : Nat) (s : σ) (k : Option Nat) : Option (State σ ι γ) :=
  if (y.sess s).ppSendMu.isSome then none
  else if (y.sess s).ppClosing then some ((y.recycle w).goWorker i w (.resume s k))
  else some ((y.setSess s { y.sess s with ppSendMu := some i }).goWorker i w (.tx s k (y.batch w)))

/-- One write of `tx`, and the end of `sendTx` after the last. A failed write
ends the loop. mirrors src/tx.go:31-46 (`defaultTx`), src/postprocess.go:105-113 -/
def write (y : State σ ι γ) (i : ι) (w : Nat) (s : σ) (k : Option Nat) (fail : Bool) :
    List (Message σ) → State σ ι γ
  | [] => ((y.recycle w).setSess s { y.sess s with ppSendMu := none }).goWorker i w (.resume s k)
  | m :: msgs =>
    if fail then y.goWorker i w (.tx s k [])
    else (y.record (.tx s m)).goWorker i w (.tx s k msgs)

/-- One step of a running worker.
mirrors src/postprocess.go:132-152,183-215 (`postProcessWorker`, `finishPostProcess`,
`discardPostProcess`) and src/sess.go:760-858 (`postProcess`) -/
def phaseStep (y : State σ ι γ) (i : ι) (w : Nat) (c : Choice) : Phase σ → Option (State σ ι γ)
  | .wait =>
    (PPQueue.dequeue y.ppQueue).map fun (s, pq) => { y with ppQueue := pq }.goWorker i w (.took s)
  | .took s => some (y.goWorker i w (if (y.sess s).die then .store s false else .loop s 0))
  | .loop s n =>
    if n < ppBudget then some (y.popBuild i w s n c.skip)
    else some (y.goWorker i w (if 0 < (y.batch w).length then .flush s none else .recheck s))
  | .built s n =>
    if (y.sess s).postQueue.len = 0 ∨ maxBatchSize ≤ (y.batch w).length then
      some (y.goWorker i w (.flush s (some n)))
    else some (y.goWorker i w (.loop s (n + 1)))
  | .flush s k => some (y.flushTx i w s k)
  | .send s k => y.sendTx i w s k
  | .tx s k msgs => some (y.write i w s k c.fail msgs)
  | .recheck s => some (y.goWorker i w (if 0 < (y.sess s).postQueue.len then .requeue s else .store s true))
  | .requeue s => some ((y.ppEnqueue s).goWorker i w .wait)
  | .store s u => some ((y.setSess s { y.sess s with ppRunning := false }).goWorker i w (.stored s u))
  | .stored s u => some (y.goWorker i w (if (y.sess s).die then .discard s else .relook s u))
  | .discard s =>
    match (y.sess s).postQueue.pop with
    | (none, _) => some (y.goWorker i w .wait)
    | (some _, pq) => some ((y.setSess s { y.sess s with postQueue := pq }).goWorker i w (.discard s))
  | .relook s u => some (y.goWorker i w (if 0 < (y.sess s).postQueue.len then .reclaim s u else .wait))
  | .reclaim s u =>
    if (y.sess s).ppRunning then some (y.goWorker i w .wait)
    else some ((y.setSess s { y.sess s with ppRunning := true }).goWorker i w (if u then .requeue s else .wait))

def workerStep (y : State σ ι γ) (i : ι) (c : Choice) : Option (State σ ι γ) :=
  match y.worker i with
  | .start => if y.started then y.get i c.pick else none
  | .run w p => y.phaseStep i w c p

/-! ## Producers and `Close` -/

/-- The next step of a goroutine inside a session's method.
mirrors src/sess.go:254-266,526-555,983-997 (the output callback, `Close`,
`SendOOB`) and src/postprocess.go:117-126,144-152 (`kickPostProcess`,
`claimPostProcess`, `discardPostProcess`) -/
def appStep (y : State σ ι γ) (g : γ) (grow : Nat) : Option (State σ ι γ) :=
  match y.app g with
  | .idle => none
  | .locked _ _ => none
  | .output s c r =>
    match (y.sess s).postQueue.push grow r with
    | (true, pq) => some ((y.setSess s { y.sess s with postQueue := pq }).goApp g (.pushed s c))
    | (false, _) => some (y.goApp g (.locked s c))
  | .pushed s c =>
    if (y.sess s).ppRunning then some (y.goApp g (.locked s c))
    else some ((y.setSess s { y.sess s with ppRunning := true }).goApp g (.claimed s c))
  | .claimed s c => some ((y.ppEnqueue s).goApp g (.locked s c))
  | .closing s =>
    if (y.sess s).mu.isSome then none
    else some ((y.setSess s { y.sess s with mu := some g }).goApp g (.locked s true))
  | .gate s =>
    if (y.sess s).ppSendMu.isSome then none
    else some ((y.setSess s { y.sess s with ppClosing := true }).goApp g (.drain s))
  | .drain s =>
    match (y.sess s).postQueue.pop with
    | (none, _) =>
      some (((y.setSess s { y.sess s with dieOnce := .done }).record (.closed s)).goApp g .idle)
    | (some _, pq) => some ((y.setSess s { y.sess s with postQueue := pq }).goApp g (.drain s))

end State

/-! ## The system -/

inductive Ev (σ ι γ : Type) where
  -- a method of `s` takes `s.mu`
  | lock (g : γ) (s : σ)
  -- `SetDUP`, with `s.mu` held
  | setDUP (g : γ) (n : Int)
  -- the output callback or `SendOOB` is about to queue `r`
  | output (g : γ) (r : SendRequest)
  -- the method is done with `s.mu`
  | unlock (g : γ)
  -- a call of `s.Close`
  | close (g : γ) (s : σ)
  -- `Close` closes `s.die` after its flush and releases `s.mu`
  | die (g : γ)
  -- the next step of `g`
  | app (g : γ) (grow : Nat)
  | worker (i : ι) (c : Choice)
  deriving DecidableEq, Repr

/-- Only `SendOOB` queues out-of-band packets, which needs an FEC encoder.
mirrors src/sess.go:960-963 (`SendOOB`) -/
def Session.allows (x : Session ι γ) (c : Bool) (r : SendRequest) : Bool :=
  !r.oob || (!c && x.fecEncoder.isSome)

/-- mirrors src/sess.go:254-266,523-560,638-642,960-999 (the output callback,
`Close`, `SetDUP`, `SendOOB`) -/
def next (y : State σ ι γ) : Ev σ ι γ → Option (State σ ι γ)
  | .lock g s =>
    if y.app g = .idle ∧ (y.sess s).mu.isNone then
      some ((y.setSess s { y.sess s with mu := some g }).goApp g (.locked s false))
    else none
  | .setDUP g n =>
    match y.app g with
    | .locked s false => some (y.setSess s { y.sess s with dup := n })
    | _ => none
  | .output g r =>
    match y.app g with
    | .locked s c =>
      if (y.sess s).allows c r then
        -- a packet of a closed session is dropped
        some (if (y.sess s).die then y else y.goApp g (.output s c r))
      else none
    | _ => none
  | .unlock g =>
    match y.app g with
    | .locked s false => some ((y.setSess s { y.sess s with mu := none }).goApp g .idle)
    | _ => none
  | .close g s =>
    if y.app g = .idle then
      match (y.sess s).dieOnce with
      | .fresh => some ((y.setSess s { y.sess s with dieOnce := .running }).goApp g (.closing s))
      -- a second call waits for the first and returns an error
      | .running => none
      | .done => some y
    else none
  | .die g =>
    match y.app g with
    | .locked s true => some ((y.setSess s { y.sess s with die := true, mu := none }).goApp g (.gate s))
    | _ => none
  | .app g grow => y.appStep g grow
  | .worker i c => y.workerStep i c

/-- All sessions open and idle, no worker running; `fec` gives the shard
counts of a session with an encoder. -/
def initial (fec : σ → Option (Nat × Nat)) : State σ ι γ where
  sess s := ⟨.empty, false, false, .fresh, none, none, false, 0, (fec s).map fun (d, p) => ⟨d, p, []⟩⟩
  app _ := .idle
  worker _ := .start
  ppQueue := .empty
  started := false
  pool := []
  made := 0
  batch _ := []
  log := []

def system (fec : σ → Option (Nat × Nat)) : LTS (State σ ι γ) (Ev σ ι γ) :=
  LTS.ofFn (fun y => y = initial fec) next

/-! ## Pieces of runs -/

/-- The two sessions, workers and goroutines of the runs. -/
def ix0 : Fin 2 := 0

@[inherit_doc ix0]
def ix1 : Fin 2 := 1

/-- The next step of a worker, with new storage and no failed write. -/
def work (i : Fin 2) : Ev (Fin 2) (Fin 2) (Fin 2) := .worker i ⟨none, false, false⟩

/-- Goroutine 0, which holds the `mu` of an idle session, puts out a packet. -/
def put (r : SendRequest) : List (Ev (Fin 2) (Fin 2) (Fin 2)) :=
  [.output ix0 r, .app ix0 4, .app ix0 4, .app ix0 4]

/-- Goroutine 0 calls `s.Close`, up to `close(s.die)`. -/
def shut (s : Fin 2) : List (Ev (Fin 2) (Fin 2) (Fin 2)) := [.close ix0 s, .app ix0 4, .die ix0]

end KcpGo.L5
