import KcpGo.Core.LTS
import KcpGo.L2Machine.TimedHeap
import Mathlib.Algebra.Ring.Int.Defs

/-!
# The timed scheduler (`timedsched.go`)

Each shard has a goroutine in `run`; `Put` is called by any goroutine, tasks
that execute among them. A critical section under a shard's lock is one step,
and so is each operation on a channel or on the shard's timer. The clock moves
forward between steps, and inside a critical section that reads it twice.

A timer that has expired sends its tick in a step of its own. With
`asynctimerchan` (the default of main modules before Go 1.23) a tick can be
sent, and can stay in the channel, after the timer was stopped or reset;
`async` says whether that is so.

* `shard_step`: what every step of a shard keeps.
* `sched_sleep`: a shard does not sleep past a task, and each task runs once,
  not too early.
-/
namespace KcpGo.L5

open KcpGo.L2

variable {ι : Type}

/-- mirrors src/timedsched.go:87 -/
def schedSlack : Int := 5000000

/-- `time.Until(t)`; a `Duration` is an int64 and the difference saturates. -/
def untilTime (t now : Int) : Int := max (-2 ^ 63) (min (t - now) (2 ^ 63 - 1))

/-- A timer that was set at `set` to expire after `wait`. It is there until its
tick is in the channel; `expired`: `Stop` comes too late for it. -/
structure Timer where
  set : Int
  wait : Int
  expired : Bool
  deriving DecidableEq

/-- Where the goroutine of a shard is.
mirrors src/timedsched.go:133-181 -/
inductive RunPhase (ι : Type) where
  /-- before `sh.mu.Lock()` -/
  | lock
  /-- before the next task of the batch -/
  | batch (due : List (TimedFunc ι))
  /-- in a task, with those after it -/
  | running (due : List (TimedFunc ι))
  /-- nothing was due; a `wait` if `pending` -/
  | arm (wait : Option Int)
  /-- at the `select`; `fire` is not nil -/
  | select (fire : Bool)
  /-- past the receive from `sh.wake` -/
  | woken (fire : Bool)
  /-- past a `timer.Stop()` that returned false -/
  | drain
  | returned
  deriving DecidableEq

/-- mirrors src/timedsched.go:108-114 -/
structure TsShard (ι : Type) where
  tasks : List (TimedFunc ι) := []
  /-- 0 is the zero `time.Time` -/
  armed : Int := 0
  /-- the clock at the last `time.Until` (a ghost) -/
  read : Int := 0
  wake : Bool := false
  phase : RunPhase ι := .lock
  timer : Option Timer := none
  /-- ticks to come of timers that were stopped or reset too late -/
  late : Nat := 0
  /-- `timer.C` is not empty -/
  tick : Bool := false
  /-- calls of `Put` before their lock -/
  calls : List (TimedFunc ι) := []
  /-- calls of `Put` between their unlock and their wake -/
  waking : Nat := 0
  /-- what was put -/
  put : List (TimedFunc ι) := []
  /-- what was executed, and when -/
  executed : List (TimedFunc ι × Int) := []
  deriving DecidableEq

/-- mirrors src/timedsched.go:136-138 -/
def popDue (limit : Int) : Nat → List (TimedFunc ι) → List (TimedFunc ι) → List (TimedFunc ι) × List (TimedFunc ι)
  | 0, tasks, due => (tasks, due)
  | n + 1, tasks, due =>
    match tasks.head?, TimedHeap.pop tasks with
    | some f, some (g, rest) => if f.ts ≤ limit then popDue limit n rest (due ++ [g]) else (tasks, due)
    | _, _ => (tasks, due)

namespace TsShard

/-- The critical section of `run`; the clock is `now` at `time.Now()` and
`later` at `time.Until`.
mirrors src/timedsched.go:134-150 -/
def scan (now later : Int) (sh : TsShard ι) : TsShard ι :=
  let r := popDue (now + schedSlack) sh.tasks.length sh.tasks []
  match r.2, r.1 with
  | [], f :: _ => { sh with tasks := r.1, armed := f.ts, read := later, phase := .arm (some (untilTime f.ts later)) }
  | [], [] => { sh with tasks := r.1, armed := 0, phase := .arm none }
  | _ :: _, _ => { sh with tasks := r.1, armed := 0, phase := .batch r.2 }

/-- The critical section of `Put`.
mirrors src/timedsched.go:187-192 -/
def enqueue (sh : TsShard ι) (f : TimedFunc ι) : TsShard ι :=
  let tasks := TimedHeap.push sh.tasks f
  let wake := decide (tasks.head?.map TimedFunc.ts = some f.ts) && (decide (sh.armed = 0) || decide (f.ts < sh.armed))
  { sh with tasks := tasks, put := f :: sh.put, waking := if wake then sh.waking + 1 else sh.waking }

/-- `timer.Stop()`. -/
def stopTimer (async : Bool) (sh : TsShard ι) : Bool × TsShard ι :=
  if async then
    match sh.timer with
    | some t =>
      if t.expired then (false, { sh with timer := none, late := sh.late + 1 })
      else (true, { sh with timer := none })
    | none => (false, sh)
  else (sh.timer.isSome || sh.tick, { sh with timer := none, late := 0, tick := false })

/-- `timer.Reset(wait)`. -/
def resetTimer (async : Bool) (now wait : Int) (sh : TsShard ι) : TsShard ι :=
  { (sh.stopTimer async).2 with timer := some ⟨now, wait, false⟩ }

end TsShard

/-- The steps of a shard, of the calls of `Put` on it, and of its timer. -/
inductive TsOp where
  /-- the critical section of the `k`-th call -/
  | enqueue (k : Nat)
  /-- the send to `sh.wake` -/
  | notify
  | scan (later : Int)
  | execute
  /-- the task returns -/
  | finish
  | reset
  | recvFire
  | recvWake
  | recvDie
  | stop
  | drain
  | expire
  | send
  | sendLate

/-- The clock after a step. -/
def TsOp.clock (now : Int) : TsOp → Int
  | .scan later => later
  | _ => now

/-- mirrors src/timedsched.go:129-199 -/
def TsShard.step (async die : Bool) (now : Int) (sh : TsShard ι) : TsOp → Option (TsShard ι)
  | .enqueue k =>
    match sh.calls[k]? with
    | some f => some ({ sh with calls := sh.calls.eraseIdx k }.enqueue f)
    | none => none
  | .notify =>
    match sh.waking with
    | n + 1 => some { sh with waking := n, wake := true }
    | 0 => none
  | .scan later =>
    match sh.phase with
    | .lock => if now ≤ later then some (sh.scan now later) else none
    | _ => none
  | .execute =>
    match sh.phase with
    | .batch (f :: due) => some { sh with phase := .running due, executed := (f, now) :: sh.executed }
    | _ => none
  | .finish =>
    match sh.phase with
    | .running [] => some { sh with phase := .lock }
    | .running (f :: due) => some { sh with phase := .batch (f :: due) }
    | _ => none
  | .reset =>
    match sh.phase with
    | .arm (some wait) => some { sh.resetTimer async now (max wait 0) with phase := .select true }
    | .arm none => some { sh with phase := .select false }
    | _ => none
  | .recvFire =>
    match sh.phase, sh.tick with
    | .select true, true => some { sh with tick := false, phase := .lock }
    | _, _ => none
  | .recvWake =>
    match sh.phase, sh.wake with
    | .select fire, true => some { sh with wake := false, phase := .woken fire }
    | _, _ => none
  | .recvDie =>
    match sh.phase with
    | .select _ => if die then some { (sh.stopTimer async).2 with phase := .returned } else none
    | _ => none
  | .stop =>
    match sh.phase with
    | .woken true => some { (sh.stopTimer async).2 with phase := if (sh.stopTimer async).1 then .lock else .drain }
    | .woken false => some { sh with phase := .lock }
    | _ => none
  | .drain =>
    match sh.phase with
    | .drain => some { sh with tick := false, phase := .lock }
    | _ => none
  | .expire =>
    match sh.timer with
    | some t =>
      if t.expired = false ∧ t.set + t.wait ≤ now then some { sh with timer := some { t with expired := true } }
      else none
    | none => none
  | .send =>
    match sh.timer with
    | some t => if t.expired then some { sh with timer := none, tick := true } else none
    | none => none
  | .sendLate =>
    match sh.late with
    | n + 1 => some { sh with late := n, tick := true }
    | 0 => none

/-! ## All shards -/

/-- mirrors src/timedsched.go:100-106 -/
structure TimedSched (ι : Type) where
  shards : List (TsShard ι)
  next : UInt32
  clock : Int
  die : Bool
  deriving DecidableEq

/-- mirrors src/timedsched.go:117-127 (`NewTimedSched`) -/
def newTimedSched (parallel clock : Int) : TimedSched ι := ⟨List.replicate (max parallel 1).toNat {}, 0, clock, false⟩

inductive TsLabel (ι : Type) where
  /-- a call of `Put` chooses its shard -/
  | put (f : ι) (deadline : Int)
  | shard (i : Nat) (op : TsOp)
  | advance (clock : Int)
  | close

def TimedSched.step (async : Bool) (ts : TimedSched ι) : TsLabel ι → Option (TimedSched ι)
  | .put f deadline =>
    let i := ((ts.next + 1) % UInt32.ofNat ts.shards.length).toNat
    match ts.shards[i]? with
    | some sh =>
      some { ts with
        next := ts.next + 1
        shards := ts.shards.set i { sh with calls := ⟨f, deadline⟩ :: sh.calls } }
    | none => none
  | .shard i op =>
    match ts.shards[i]? with
    | some sh =>
      (sh.step async ts.die ts.clock op).map fun sh' =>
        { ts with shards := ts.shards.set i sh', clock := op.clock ts.clock }
    | none => none
  | .advance clock => if ts.clock ≤ clock then some { ts with clock := clock } else none
  | .close => some { ts with die := true }

def tsLts (ι : Type) (async : Bool) : LTS (TimedSched ι) (TsLabel ι) :=
  .ofFn (fun ts => ∃ parallel clock, ts = newTimedSched parallel clock) (TimedSched.step async)

/-! ## A shard -/

/-- The batch that is not executed yet. -/
def RunPhase.due : RunPhase ι → List (TimedFunc ι)
  | .batch due => due
  | .running due => due
  | _ => []

/-- Asleep, or about to be; with a timer or without. -/
def RunPhase.sleeps : RunPhase ι → Option Bool
  | .arm wait => some wait.isSome
  | .select fire => some fire
  | _ => none

namespace TsShard

/-- Someone wakes the shard, or nothing is due before it wakes by itself. -/
def Covered (sh : TsShard ι) (pending : Bool) : Prop :=
  sh.wake = true ∨ 0 < sh.waking ∨ if pending then ∀ f ∈ sh.tasks, sh.armed ≤ f.ts else sh.tasks = []

/-- The timer runs for `armed`: it was set to the time that was left until then
when the clock was read, or to 0 if that had passed. -/
def RunsFor (sh : TsShard ι) (now : Int) : Prop :=
  ∃ t, sh.timer = some t ∧ sh.read ≤ t.set ∧ t.set ≤ now ∧ t.wait = max (untilTime sh.armed sh.read) 0

/-- What every step of a shard keeps. -/
structure Sound (now : Int) (sh : TsShard ι) : Prop where
  heap : BinHeap.IsHeap TimedHeap.before sh.tasks
  held : (sh.tasks ++ sh.phase.due ++ sh.executed.map Prod.fst).Perm sh.put
  early : ∀ e ∈ sh.executed, e.1.ts - schedSlack ≤ e.2
  due : ∀ f ∈ sh.phase.due, f.ts - schedSlack ≤ now
  covered : ∀ p, sh.phase.sleeps = some p → sh.Covered p
  zero : sh.phase.sleeps = some false → sh.armed = 0
  waits : ∀ w, sh.phase = .arm (some w) → sh.read ≤ now ∧ w = untilTime sh.armed sh.read
  timed : sh.phase = .select true → sh.tick = true ∨ sh.RunsFor now

variable {sh : TsShard ι} {now : Int}

theorem sound_new (now : Int) : Sound now ({} : TsShard ι) where
  heap i _ hi := absurd hi (Nat.not_lt_zero i)
  held := .refl _
  early _ he := absurd he List.not_mem_nil
  due _ hf := absurd hf List.not_mem_nil
  covered _ hp := nomatch hp
  zero hp := nomatch hp
  waits _ hp := nomatch hp
  timed hp := nomatch hp

theorem RunsFor.mono (h : sh.RunsFor now) {later : Int} (hle : now ≤ later) : sh.RunsFor later := by
  obtain ⟨t, ht, hread, hset, hwait⟩ := h
  exact ⟨t, ht, hread, Int.le_trans hset hle, hwait⟩

/-- The clock moves on. -/
theorem Sound.mono (h : Sound now sh) {later : Int} (hle : now ≤ later) : Sound later sh :=
  { h with
    due := fun f hf => Int.le_trans (h.due f hf) hle
    waits := fun w hw => (h.waits w hw).imp_left fun hread => Int.le_trans hread hle
    timed := fun hp => (h.timed hp).imp_right fun ht => ht.mono hle }

/-- A shard that is not about to sleep has nothing to answer for. -/
theorem Sound.awake (h : Sound now sh) {sh' : TsShard ι} (htasks : sh'.tasks = sh.tasks) (hput : sh'.put = sh.put)
    (hexec : sh'.executed = sh.executed) (hdue : sh'.phase.due = sh.phase.due) (hsleeps : sh'.phase.sleeps = none) :
    Sound now sh' where
  heap := htasks ▸ h.heap
  held := by
    rw [htasks, hput, hexec, hdue]
    exact h.held
  early := hexec ▸ h.early
  due := hdue ▸ h.due
  covered p hp := by
    rw [hsleeps] at hp
    cases hp
  zero hp := by
    rw [hsleeps] at hp
    cases hp
  waits w hw := by
    rw [hw] at hsleeps
    cases hsleeps
  timed hp := by
    rw [hp] at hsleeps
    cases hsleeps

/-- **Every due task is popped**, and nothing is lost. -/
theorem popDue_spec {limit : Int} :
    ∀ {n : Nat} {tasks due : List (TimedFunc ι)}, BinHeap.IsHeap TimedHeap.before tasks →
    tasks.length ≤ n →
    BinHeap.IsHeap TimedHeap.before (popDue limit n tasks due).1 ∧
      ((popDue limit n tasks due).1 ++ (popDue limit n tasks due).2).Perm (tasks ++ due) ∧
      (∀ f ∈ (popDue limit n tasks due).2, f ∈ due ∨ f.ts ≤ limit) ∧
        ∀ f ∈ (popDue limit n tasks due).1, limit < f.ts := by
  intro n
  induction n with
  | zero =>
    intro tasks due hheap hlen
    obtain rfl := List.length_eq_zero_iff.mp (Nat.le_zero.mp hlen)
    exact ⟨hheap, .refl _, fun f hf => .inl hf, fun f hf => absurd hf List.not_mem_nil⟩
  | succ n ih =>
    intro tasks due hheap hlen
    cases tasks with
    | nil => exact ⟨hheap, .refl _, fun f hf => .inl hf, fun f hf => absurd hf List.not_mem_nil⟩
    | cons f tasks =>
      obtain ⟨rest, hpop⟩ : ∃ rest, TimedHeap.pop (f :: tasks) = some (f, rest) := ⟨_, rfl⟩
      obtain ⟨hperm, hrest, -⟩ := TimedHeap.pop_spec hheap hpop
      simp only [popDue, hpop, List.head?_cons]
      split
      · rename_i hdue
        have hlt := hperm.length_eq
        rw [List.length_cons] at hlt
        obtain ⟨hheap', hheld, hearly, hlate⟩ := @ih rest (due ++ [f]) hrest (by omega)
        refine ⟨hheap', hheld.trans ?_, fun g hg => ?_, hlate⟩
        · have hmove : (rest ++ (due ++ [f])).Perm (f :: (rest ++ due)) := by
            rw [← List.append_assoc]
            exact List.perm_append_singleton f _
          exact hmove.trans (hperm.append_right due)
        · rcases hearly g hg with hg | hg
          · rcases List.mem_append.mp hg with hg | hg
            · exact .inl hg
            · rw [List.mem_singleton.mp hg]
              exact .inr hdue
          · exact .inr hg
      · rename_i hdue
        refine ⟨hheap, .refl _, fun g hg => .inl hg, fun g hg => ?_⟩
        have hle := TimedHeap.head_le hheap g hg
        omega

theorem scan_sound (h : Sound now sh) (hphase : sh.phase = .lock) {later : Int} (hle : now ≤ later) :
    Sound later (sh.scan now later) := by
  obtain ⟨hheap, hperm, hearly, -⟩ :=
    @popDue_spec ι (now + schedSlack) sh.tasks.length sh.tasks [] h.heap (Nat.le_refl _)
  have hheld := h.held
  rw [hphase] at hheld
  rw [List.append_nil] at hperm
  have hall := (hperm.append_right _).trans (by simpa [RunPhase.due] using hheld)
  unfold scan
  generalize popDue (now + schedSlack) sh.tasks.length sh.tasks [] = r at *
  obtain ⟨tasks, due⟩ := r
  cases due with
  | nil =>
    cases tasks with
    | nil =>
      exact { h with
        heap := hheap
        held := hall
        due := fun f hf => absurd hf List.not_mem_nil
        covered := fun p hp => by
          cases hp
          exact .inr (.inr rfl)
        zero := fun _ => rfl
        waits := fun w hw => nomatch hw
        timed := fun hp => nomatch hp }
    | cons f tasks =>
      exact { h with
        heap := hheap
        held := hall
        due := fun f hf => absurd hf List.not_mem_nil
        covered := fun p hp => by
          cases hp
          exact .inr (.inr (TimedHeap.head_le hheap))
        zero := fun hp => nomatch hp
        waits := fun w hw => by
          cases hw
          exact ⟨Int.le_refl _, rfl⟩
        timed := fun hp => nomatch hp }
  | cons f due =>
    exact { h with
      heap := hheap
      held := hall
      due := fun g hg => by
        have hlimit := (hearly g hg).resolve_left List.not_mem_nil
        omega
      covered := fun p hp => nomatch hp
      zero := fun hp => nomatch hp
      waits := fun w hw => nomatch hw
      timed := fun hp => nomatch hp }

/-- A scan is made at the top of the loop, and its second reading of the clock
is not before the first. -/
theorem scan_of_step {async die : Bool} {later : Int} {sh' : TsShard ι}
    (hstep : sh.step async die now (.scan later) = some sh') :
    sh.phase = .lock ∧ now ≤ later ∧ sh' = sh.scan now later := by
  simp only [step] at hstep
  split at hstep
  · rename_i hphase
    split at hstep
    · rename_i hle
      cases hstep
      exact ⟨hphase, hle, rfl⟩
    · cases hstep
  · cases hstep

/-- A scan leaves nothing that is due. -/
theorem scan_leaves (h : Sound now sh) (later : Int) : ∀ f ∈ (sh.scan now later).tasks, now + schedSlack < f.ts := by
  have htasks : (sh.scan now later).tasks = (popDue (now + schedSlack) sh.tasks.length sh.tasks []).1 := by
    unfold scan
    dsimp only
    split <;> rfl
  rw [htasks]
  exact (popDue_spec h.heap (Nat.le_refl _)).2.2.2

/-- An earlier head wakes the shard. -/
theorem enqueue_covered (h : Sound now sh) (f : TimedFunc ι) {pending : Bool} (hp : sh.phase.sleeps = some pending) :
    (sh.enqueue f).Covered pending := by
  obtain ⟨hperm, hheap⟩ := TimedHeap.push_spec h.heap f
  obtain ⟨g, rest, hpush⟩ : ∃ g rest, TimedHeap.push sh.tasks f = g :: rest := by
    cases hpush : TimedHeap.push sh.tasks f with
    | nil =>
      rw [hpush] at hperm
      exact absurd hperm.symm (List.not_perm_cons_nil)
    | cons g rest => exact ⟨g, rest, rfl⟩
  have hwakes (hts : g.ts = f.ts) (harmed : sh.armed = 0 ∨ f.ts < sh.armed) : 0 < (sh.enqueue f).waking := by
    simp [enqueue, hpush, hts, harmed]
  have hkeeps : sh.waking ≤ (sh.enqueue f).waking := by
    simp only [enqueue]
    split
    · exact Nat.le_succ _
    · exact Nat.le_refl _
  rw [hpush] at hperm hheap
  have hmin := TimedHeap.head_le hheap f (hperm.mem_iff.mpr List.mem_cons_self)
  have hmem {x : TimedFunc ι} (hx : x ∈ g :: rest) : x = f ∨ x ∈ sh.tasks := List.mem_cons.mp (hperm.mem_iff.mp hx)
  rcases h.covered pending hp with hwake | hwaking | hquiet
  · exact .inl hwake
  · exact .inr (.inl (by omega))
  · right
    cases pending with
    | false =>
      -- the heap was empty, so the task is its head
      have hempty : sh.tasks = [] := hquiet
      rcases hmem List.mem_cons_self with rfl | hg
      · exact .inl (hwakes rfl (.inl (h.zero hp)))
      · rw [hempty] at hg
        cases hg
    | true =>
      have hafter : ∀ x ∈ sh.tasks, sh.armed ≤ x.ts := hquiet
      by_cases hlt : f.ts < sh.armed
      · rcases hmem List.mem_cons_self with rfl | hg
        · exact .inl (hwakes rfl (.inr hlt))
        · have hge := hafter g hg
          omega
      · refine .inr fun x hx => ?_
        have hx' : x ∈ g :: rest := hpush ▸ hx
        rcases hmem hx' with rfl | hx'
        · exact Int.not_lt.mp hlt
        · exact hafter x hx'

theorem enqueue_sound (h : Sound now sh) (f : TimedFunc ι) : Sound now (sh.enqueue f) := by
  obtain ⟨hperm, hheap⟩ := TimedHeap.push_spec h.heap f
  exact { h with
    heap := hheap
    held := ((hperm.append_right _).append_right _).trans (h.held.cons f)
    covered := fun p hp => enqueue_covered h f hp }

/-- `Stop` changes only the timer. -/
theorem stopTimer_same (async : Bool) (sh : TsShard ι) :
    ∃ t l k, (sh.stopTimer async).2 = { sh with timer := t, late := l, tick := k } := by
  unfold stopTimer
  split
  · split
    · split
      · exact ⟨_, _, _, rfl⟩
      · exact ⟨_, _, _, rfl⟩
    · exact ⟨sh.timer, sh.late, sh.tick, rfl⟩
  · exact ⟨_, _, _, rfl⟩

/-- `Reset` for the time left until `armed`. -/
theorem reset_sound (h : Sound now sh) (async : Bool) {wait : Int} (hphase : sh.phase = .arm (some wait)) :
    Sound now { sh.resetTimer async now (max wait 0) with phase := .select true } := by
  obtain ⟨t, l, k, hstop⟩ := stopTimer_same async sh
  obtain ⟨hread, rfl⟩ := h.waits wait hphase
  have hdue : sh.phase.due = [] := by rw [hphase]; rfl
  have hheld := h.held
  rw [hdue] at hheld
  unfold resetTimer
  rw [hstop]
  exact {
    heap := h.heap
    held := hheld
    early := h.early
    due := fun f hf => absurd hf List.not_mem_nil
    covered := fun p hp => by
      cases hp
      exact h.covered true (by rw [hphase]; rfl)
    zero := fun hp => nomatch hp
    waits := fun w hw => nomatch hw
    timed := fun _ => .inr ⟨_, rfl, hread, Int.le_refl _, rfl⟩ }

/-- A tick in the channel, or the timer as before. -/
theorem Sound.ticked (h : Sound now sh) {sh' : TsShard ι} {t : Option Timer} {l : Nat} {k : Bool}
    (hsh : sh' = { sh with timer := t, late := l, tick := k })
    (htimed : sh.tick = true ∨ sh.RunsFor now → k = true ∨ sh'.RunsFor now) : Sound now sh' := by
  subst hsh
  exact { h with timed := fun hp => htimed (h.timed hp) }

/-- **Every step of a shard** keeps the invariant. -/
theorem shard_step {async die : Bool} {op : TsOp} {sh' : TsShard ι} (h : Sound now sh)
    (hstep : sh.step async die now op = some sh') :
    Sound (op.clock now) sh' := by
  obtain ⟨t, l, k, hstop⟩ := stopTimer_same async sh
  cases op with
  | enqueue n =>
    simp only [step] at hstep
    split at hstep
    · cases hstep
      have hcall : Sound now { sh with calls := sh.calls.eraseIdx n } := { h with }
      exact enqueue_sound hcall _
    · cases hstep
  | notify =>
    simp only [step] at hstep
    split at hstep
    · cases hstep
      exact { h with covered := fun p hp => .inl rfl }
    · cases hstep
  | scan later =>
    obtain ⟨hphase, hle, rfl⟩ := scan_of_step hstep
    exact scan_sound h hphase hle
  | execute =>
    simp only [step] at hstep
    split at hstep
    · rename_i f due hphase
      cases hstep
      have hdue := h.due
      have hheld := h.held
      rw [hphase] at hdue hheld
      have hmove : (sh.tasks ++ due ++ (f :: sh.executed.map Prod.fst)).Perm
          (sh.tasks ++ (f :: due) ++ sh.executed.map Prod.fst) := by
        rw [List.append_assoc, List.append_assoc]
        exact List.Perm.append_left _ List.perm_middle
      exact { h with
        held := hmove.trans hheld
        early := fun e he => by
          rcases List.mem_cons.mp he with rfl | he
          · exact hdue f List.mem_cons_self
          · exact h.early e he
        due := fun g hg => hdue g (List.mem_cons_of_mem f hg)
        covered := fun p hp => nomatch hp
        zero := fun hp => nomatch hp
        waits := fun w hw => nomatch hw
        timed := fun hp => nomatch hp }
    · cases hstep
  | finish =>
    simp only [step] at hstep
    split at hstep
    · rename_i hphase
      cases hstep
      exact h.awake rfl rfl rfl (by rw [hphase]; rfl) rfl
    · rename_i hphase
      cases hstep
      exact h.awake rfl rfl rfl (by rw [hphase]; rfl) rfl
    · cases hstep
  | reset =>
    simp only [step] at hstep
    split at hstep
    · rename_i hphase
      cases hstep
      exact reset_sound h async hphase
    · rename_i hphase
      cases hstep
      have hdue : sh.phase.due = [] := by rw [hphase]; rfl
      have hheld := h.held
      rw [hdue] at hheld
      exact { h with
        held := hheld
        due := fun f hf => absurd hf List.not_mem_nil
        covered := fun p hp => by
          cases hp
          exact h.covered false (by rw [hphase]; rfl)
        zero := fun _ => h.zero (by rw [hphase]; rfl)
        waits := fun w hw => nomatch hw
        timed := fun hp => nomatch hp }
    · cases hstep
  | recvFire =>
    simp only [step] at hstep
    split at hstep
    · rename_i hphase _
      cases hstep
      exact h.awake rfl rfl rfl (by rw [hphase]; rfl) rfl
    · cases hstep
  | recvWake =>
    simp only [step] at hstep
    split at hstep
    · rename_i hphase _
      cases hstep
      exact h.awake rfl rfl rfl (by rw [hphase]; rfl) rfl
    · cases hstep
  | recvDie =>
    simp only [step, hstop] at hstep
    split at hstep
    · rename_i hphase
      split at hstep
      · cases hstep
        exact h.awake rfl rfl rfl (by rw [hphase]; rfl) rfl
      · cases hstep
    · cases hstep
  | stop =>
    simp only [step, hstop] at hstep
    split at hstep
    · rename_i hphase
      cases hstep
      refine h.awake rfl rfl rfl ?_ ?_
      · rw [hphase]
        show RunPhase.due (if _ then _ else _) = _
        split <;> rfl
      · show RunPhase.sleeps (if _ then _ else _) = _
        split <;> rfl
    · rename_i hphase
      cases hstep
      exact h.awake rfl rfl rfl (by rw [hphase]; rfl) rfl
    · cases hstep
  | drain =>
    simp only [step] at hstep
    split at hstep
    · rename_i hphase
      cases hstep
      exact h.awake rfl rfl rfl (by rw [hphase]; rfl) rfl
    · cases hstep
  | expire =>
    simp only [step] at hstep
    split at hstep
    · rename_i t ht
      split at hstep
      · cases hstep
        refine h.ticked rfl (Or.imp_right ?_)
        rintro ⟨t', ht', hread, hset, hwait⟩
        obtain rfl := Option.some.inj (ht.symm.trans ht')
        exact ⟨_, rfl, hread, hset, hwait⟩
      · cases hstep
    · cases hstep
  | send =>
    simp only [step] at hstep
    split at hstep
    · split at hstep
      · cases hstep
        exact h.ticked rfl fun _ => .inl rfl
      · cases hstep
    · cases hstep
  | sendLate =>
    simp only [step] at hstep
    split at hstep
    · cases hstep
      exact h.ticked rfl fun _ => .inl rfl
    · cases hstep

theorem step_clock {async die : Bool} {op : TsOp} {sh' : TsShard ι} (hstep : sh.step async die now op = some sh') :
    now ≤ op.clock now := by
  cases op with
  | scan later => exact (scan_of_step hstep).2.1
  | _ => exact Int.le_refl _

/-- At the `select`, with no tick to receive. -/
def Blocked (sh : TsShard ι) : Prop := ∃ fire, sh.phase = .select fire ∧ (fire && sh.tick) = false

end TsShard

/-! ## Every run -/

open TsShard

theorem sched_inductive (async : Bool) : (tsLts ι async).Inductive fun ts => ∀ sh ∈ ts.shards, Sound ts.clock sh where
  init := by
    rintro ts ⟨parallel, clock, rfl⟩ sh hsh
    rw [List.eq_of_mem_replicate hsh]
    exact sound_new clock
  step ts l ts' h hstep := by
    have hstep : ts.step async l = some ts' := hstep
    cases l with
    | put f deadline =>
      simp only [TimedSched.step] at hstep
      split at hstep
      · rename_i sh hget
        cases hstep
        intro sh' hsh'
        rcases List.mem_or_eq_of_mem_set hsh' with hsh' | rfl
        · exact h sh' hsh'
        · exact { h sh (List.mem_of_getElem? hget) with }
      · cases hstep
    | shard i op =>
      simp only [TimedSched.step] at hstep
      split at hstep
      · rename_i sh hget
        obtain ⟨sh₁, hop, rfl⟩ := Option.map_eq_some_iff.mp hstep
        intro sh' hsh'
        rcases List.mem_or_eq_of_mem_set hsh' with hsh' | rfl
        · exact (h sh' hsh').mono (step_clock hop)
        · exact shard_step (h sh (List.mem_of_getElem? hget)) hop
      · cases hstep
    | advance clock =>
      simp only [TimedSched.step] at hstep
      split at hstep
      · rename_i hle
        cases hstep
        exact fun sh hsh => (h sh hsh).mono hle
      · cases hstep
    | close =>
      cases hstep
      exact h

/-- **No shard sleeps past a task, and each task runs once, not too early.**
What was put is in the heap, in the batch or executed, each task in one place;
a scan leaves nothing in the heap that is due. -/
theorem sched_sleep {async : Bool} {ts : TimedSched ι} (hr : (tsLts ι async).Reachable ts) {sh : TsShard ι}
    (hsh : sh ∈ ts.shards) :
    (sh.Blocked → sh.tasks ≠ [] →
      sh.wake = true ∨ 0 < sh.waking ∨ (sh.RunsFor ts.clock ∧ ∀ f ∈ sh.tasks, sh.armed ≤ f.ts)) ∧
    (∀ e ∈ sh.executed, e.1.ts - schedSlack ≤ e.2) ∧
    (sh.tasks ++ sh.phase.due ++ sh.executed.map Prod.fst).Perm sh.put ∧
    ∀ later sh', sh.step async ts.die ts.clock (.scan later) = some sh' →
      ∀ f ∈ sh'.tasks, ts.clock + schedSlack < f.ts := by
  have h := (sched_inductive async).reachable ts hr sh hsh
  refine ⟨fun hblocked htasks => ?_, h.early, h.held, fun later sh' hstep => ?_⟩
  · obtain ⟨fire, hphase, htick⟩ := hblocked
    rcases h.covered fire (by rw [hphase]; rfl) with hwake | hwaking | hquiet
    · exact .inl hwake
    · exact .inr (.inl hwaking)
    · cases fire with
      | false => exact absurd hquiet htasks
      | true =>
        rcases h.timed hphase with htick' | hruns
        · rw [htick'] at htick
          cases htick
        · exact .inr (.inr ⟨hruns, hquiet⟩)
  · obtain ⟨-, -, rfl⟩ := scan_of_step hstep
    exact scan_leaves h later

/-- A shard that was woken by a `Put` and sleeps for the hour until its task. -/
def sleeper : List (TsLabel Nat) :=
  [.put 1 3600000000000, .shard 0 (.enqueue 0), .shard 0 .notify, .shard 0 (.scan 1000),
    .shard 0 .reset, .shard 0 .recvWake,
    .shard 0 .stop, .shard 0 (.scan 2000), .advance 3000, .shard 0 .reset]

theorem sched_sleep_hour :
    ∃ ts : TimedSched Nat, (tsLts Nat true).Reachable ts ∧ ∃ sh ∈ ts.shards, sh.Blocked ∧ sh.tasks.length = 1 ∧
      sh.RunsFor ts.clock ∧ (∀ f ∈ sh.tasks, sh.armed ≤ f.ts) ∧
      (sh.tasks ++ sh.phase.due ++ sh.executed.map Prod.fst).Perm sh.put := by
  obtain ⟨ts, sh, hrun, hsh, hphase, hlen, hwake, hwaking, htick⟩ : ∃ (ts : TimedSched Nat) (sh : TsShard Nat),
      LTS.play (TimedSched.step true) (fun _ _ => true) (newTimedSched 1 0) sleeper = some ts ∧ ts.shards = [sh] ∧
        sh.phase = .select true ∧ sh.tasks.length = 1 ∧ sh.wake = false ∧ sh.waking = 0 ∧ sh.tick = false :=
    ⟨_, _, rfl, rfl, by decide +kernel, by decide +kernel, by decide +kernel, by decide +kernel, by decide +kernel⟩
  have hr : (tsLts Nat true).Reachable ts :=
    ⟨_, _, ⟨1, 0, rfl⟩, LTS.play_run (M := tsLts Nat true) (fun _ _ _ _ h => h) hrun⟩
  have hmem : sh ∈ ts.shards := by rw [hsh]; exact List.mem_cons_self
  have hblocked : sh.Blocked := ⟨true, hphase, by rw [htick]; rfl⟩
  obtain ⟨hsleep, -, hheld, -⟩ := sched_sleep hr hmem
  rcases hsleep hblocked (List.ne_nil_of_length_pos (by omega)) with hw | hw | ⟨hruns, hfirst⟩
  · exact absurd (hwake.symm.trans hw) Bool.false_ne_true
  · exact absurd hw (by omega)
  · exact ⟨ts, hr, sh, hmem, hblocked, hlen, hruns, hfirst, hheld⟩

end KcpGo.L5
