import KcpGo.L5Concurrency.Steps

/-!
# Who holds a `ppWorker`

A worker goroutine takes a `ppWorker` from the pool when it starts and keeps
it. `flushTx` puts it back into the pool when it finds its session closed,
but the goroutine goes on with it: from then on the pool may hand the same
storage to a worker that starts later.

* `step_custody`: what a step can do with a `ppWorker`.
* `shared_worker`: a run in which a pooled `ppWorker` is in use, and then two
  goroutines hold it.
* `exclusive_ownership`: while no `flushTx` finds its session closed, every
  `ppWorker` has one holder and none in the pool is in use.
-/

namespace KcpGo.L5

open KcpGo.L2

variable {σ ι γ : Type} [DecidableEq σ] [DecidableEq ι] [DecidableEq γ]
variable {y y' : State σ ι γ}

/-- The `ppWorker` a goroutine uses. -/
def Worker.held : Worker σ → Option Nat
  | .start => none
  | .run w _ => some w

/-- What a step can do with a `ppWorker`. -/
inductive Custody (y : State σ ι γ) : Ev σ ι γ → State σ ι γ → Prop where
  | keep {e y'} : (∀ i, (y'.worker i).held = (y.worker i).held) → y'.pool = y.pool → y'.made = y.made →
      Custody y e y'
  | new {i c y'} : y.worker i = .start → c.pick = none →
      y'.worker = Function.update y.worker i (.run y.made .wait) → y'.pool = y.pool → y'.made = y.made + 1 →
      Custody y (.worker i c) y'
  | reuse {i c w y'} : y.worker i = .start → c.pick = some w → w ∈ y.pool → Custody y (.worker i c) y'
  | put {i c w s k y'} : y.worker i = .run w (.flush s k) → (y.sess s).die = true →
      (∀ j, (y'.worker j).held = (y.worker j).held) → y'.made = y.made → Custody y (.worker i c) y'

omit [DecidableEq σ] [DecidableEq γ] in
/-- A running worker that moves keeps its `ppWorker`. -/
theorem held_goWorker {i : ι} {w : Nat} {p p' : Phase σ} (hw : y.worker i = .run w p) (j : ι) :
    (Function.update y.worker i (.run w p') j).held = (y.worker j).held := by
  refine update_agrees Worker.held ?_ j
  rw [hw]
  rfl

theorem step_custody {e : Ev σ ι γ} (hs : Step y e y') : Custody y e y' := by
  cases hs with
  | stay | admin | appMove | push | claim | enqueue | die | gate | drain | drained =>
    exact .keep (fun _ => rfl) rfl rfl
  | getNew hw hp => exact .new hw hp rfl rfl rfl
  | getOld hw hp hm => exact .reuse hw hp hm
  | flushClosed hw hd => exact .put hw hd (held_goWorker hw) rfl
  | dequeue hw | move hw | pop hw | sendClosing hw | sendLock hw | txDone hw | txWrite hw | requeue hw | store hw
  | discard hw | reclaim hw =>
    exact .keep (held_goWorker hw) rfl rfl

/-! ## One holder each -/

/-- Every `ppWorker` in use was made by `New` and has one holder. -/
structure Owned (y : State σ ι γ) : Prop where
  made : ∀ i w, (y.worker i).held = some w → w < y.made
  unique : ∀ i j w, (y.worker i).held = some w → (y.worker j).held = some w → i = j

omit [DecidableEq σ] [DecidableEq ι] [DecidableEq γ] in
theorem owned_initial (fec : σ → Option (Nat × Nat)) : Owned (initial fec : State σ ι γ) := by
  constructor
  · intro i w hi
    cases hi
  · intro i j w hi
    cases hi

omit [DecidableEq σ] [DecidableEq ι] [DecidableEq γ] in
theorem Owned.keep (h : Owned y) (hh : ∀ i, (y'.worker i).held = (y.worker i).held)
    (hm : y'.made = y.made) : Owned y' := by
  refine ⟨fun i w hi => ?_, fun i j w hi hj => ?_⟩
  · rw [hm]
    exact h.made i w (hh i ▸ hi)
  · exact h.unique i j w (hh i ▸ hi) (hh j ▸ hj)

omit [DecidableEq σ] [DecidableEq γ] in
/-- The worker that starts with a new `ppWorker` is its only holder. -/
theorem Owned.new (h : Owned y) {i : ι}
    (hw : y'.worker = Function.update y.worker i (.run y.made .wait)) (hm : y'.made = y.made + 1) : Owned y' := by
  have hheld : ∀ j w, (y'.worker j).held = some w → (j = i ∧ w = y.made) ∨ (y.worker j).held = some w := by
    intro j w hj
    rw [hw] at hj
    by_cases hji : j = i
    · rw [hji, Function.update_self] at hj
      cases hj
      exact .inl ⟨hji, rfl⟩
    · rw [Function.update_of_ne hji] at hj
      exact .inr hj
  refine ⟨fun j w hj => ?_, fun j l w hj hl => ?_⟩
  · rcases hheld j w hj with ⟨-, rfl⟩ | hj
    · omega
    · have := h.made j w hj
      omega
  · rcases hheld j w hj with ⟨hji, hjw⟩ | hj
    · rcases hheld l w hl with ⟨hli, -⟩ | hl
      · exact hji.trans hli.symm
      · exact absurd (h.made l w hl) (by omega)
    · rcases hheld l w hl with ⟨-, hlw⟩ | hl
      · exact absurd (h.made j w hj) (by omega)
      · exact h.unique j l w hj hl

/-- The step does not take a `ppWorker` out of the pool. -/
def takesNew (y : State σ ι γ) : Ev σ ι γ → Bool
  | .worker i c =>
    match y.worker i with
    | .start => c.pick.isNone
    | .run _ _ => true
  | _ => true

theorem owned_step {e : Ev σ ι γ} (h : Owned y) (hn : takesNew y e = true) (hs : Step y e y') :
    Owned y' := by
  cases step_custody hs with
  | keep hh _ hm => exact h.keep hh hm
  | new _ _ hw _ hm => exact h.new hw hm
  | reuse hw hp _ =>
    simp [takesNew, hw, hp] at hn
  | put _ _ hh hm => exact h.keep hh hm

/-! ## The pool -/

/-- The step is a `flushTx` that finds its session closed. -/
def closedFlush (y : State σ ι γ) : Ev σ ι γ → Bool
  | .worker i _ =>
    match y.worker i with
    | .run _ (.flush s _) => (y.sess s).die
    | _ => false
  | _ => false

/-- The runs in which no `flushTx` finds its session closed. -/
def openFlushes (fec : σ → Option (Nat × Nat)) : LTS (State σ ι γ) (Ev σ ι γ) :=
  (system fec).restrict fun y e _ => closedFlush y e = false

/-- Nothing is ever put into the pool, so every worker starts with a new
`ppWorker`. -/
theorem pool_step {e : Ev σ ι γ} (h : Owned y ∧ y.pool = []) (hf : closedFlush y e = false)
    (hs : Step y e y') : Owned y' ∧ y'.pool = [] := by
  obtain ⟨ho, hp⟩ := h
  cases step_custody hs with
  | keep hh hpool hm => exact ⟨ho.keep hh hm, hpool.trans hp⟩
  | new _ _ hw hpool hm => exact ⟨ho.new hw hm, hpool.trans hp⟩
  | reuse _ _ hmem =>
    rw [hp] at hmem
    cases hmem
  | put hw hd _ _ =>
    simp [closedFlush, hw, hd] at hf

/-- **Exclusive ownership.** In every run in which no `flushTx` finds its
session closed, no two goroutines hold the same `ppWorker`, and none in the
pool is used by a goroutine. -/
theorem exclusive_ownership (fec : σ → Option (Nat × Nat)) (y : State σ ι γ) (hr : (openFlushes fec).Reachable y) :
    (∀ i j w, (y.worker i).held = some w → (y.worker j).held = some w → i = j) ∧
    ∀ w ∈ y.pool, ∀ i, (y.worker i).held ≠ some w := by
  have hind : (openFlushes fec).Inductive fun y : State σ ι γ => Owned y ∧ y.pool = [] := by
    refine ⟨fun y hy => ?_, fun _ _ _ h hs => pool_step h hs.2 (step_of_next hs.1)⟩
    replace hy : y = initial fec := hy
    rw [hy]
    exact ⟨owned_initial fec, rfl⟩
  have hinv := hind.reachable y hr
  refine ⟨hinv.1.unique, fun w hw => ?_⟩
  rw [hinv.2] at hw
  cases hw

/-! ## Runs -/

/-- Both workers start; one serves a session that stays open, and the session
is closed later. -/
def calmRun : List (Ev (Fin 2) (Fin 2) (Fin 2)) :=
  .lock ix0 ix0 :: put ⟨[1], false⟩ ++ .unlock ix0 :: List.replicate 8 (work ix0) ++ work ix1 :: shut ix0 ++
    List.replicate 4 (work ix0)

theorem exclusive_ownership_calm : ∃ y : State (Fin 2) (Fin 2) (Fin 2), (openFlushes fun _ => none).Reachable y ∧
    (y.worker 0).held = some 0 ∧ (y.worker 1).held = some 1 ∧ (y.sess 0).die = true ∧
    ∀ i j w, (y.worker i).held = some w → (y.worker j).held = some w → i = j := by
  obtain ⟨y, hy, h0, h1, hd⟩ : ∃ y : State (Fin 2) (Fin 2) (Fin 2),
      LTS.play next (fun y e => !closedFlush y e) (initial fun _ => none) calmRun = some y ∧
      (y.worker 0).held = some 0 ∧ (y.worker 1).held = some 1 ∧ (y.sess 0).die = true :=
    ⟨_, rfl, by decide +kernel, by decide +kernel, by decide +kernel⟩
  have hr : (openFlushes fun _ => none).Reachable y :=
    ⟨_, calmRun, rfl, LTS.play_run (M := openFlushes fun _ => none) (fun _ _ _ hg hn => ⟨hn, by simpa using hg⟩) hy⟩
  exact ⟨y, hr, h0, h1, hd, (exclusive_ownership (fun _ => none) y hr).1⟩

/-- A worker is about to send a packet when its session is closed: it puts
its `ppWorker` into the pool. -/
def putRun : List (Ev (Fin 2) (Fin 2) (Fin 2)) :=
  .lock ix0 ix0 :: put ⟨[1], false⟩ ++ .unlock ix0 :: List.replicate 5 (work ix0) ++ shut ix0 ++ [work ix0]

/-- **Shared.** The worker still uses what it has put into the pool, and the
next worker to start may get it. -/
theorem shared_worker :
    (∃ y : State (Fin 2) (Fin 2) (Fin 2), (system fun _ => none).Reachable y ∧
      0 ∈ y.pool ∧ (y.worker 0).held = some 0) ∧
    ∃ y : State (Fin 2) (Fin 2) (Fin 2), (system fun _ => none).Reachable y ∧
      (y.worker 0).held = some 0 ∧ (y.worker 1).held = some 0 := by
  have reach : ∀ {es : List (Ev (Fin 2) (Fin 2) (Fin 2))} {y},
      LTS.play next (fun _ _ => true) (initial fun _ => none) es = some y → (system fun _ => none).Reachable y :=
    fun hy => ⟨_, _, rfl, LTS.play_run (fun _ _ _ _ hn => hn) hy⟩
  refine ⟨?_, ?_⟩
  · obtain ⟨y, hy, hp, hh⟩ : ∃ y : State (Fin 2) (Fin 2) (Fin 2),
        LTS.play next (fun _ _ => true) (initial fun _ => none) putRun = some y ∧
        0 ∈ y.pool ∧ (y.worker 0).held = some 0 :=
      ⟨_, rfl, by decide +kernel, by decide +kernel⟩
    exact ⟨y, reach hy, hp, hh⟩
  · obtain ⟨y, hy, h0, h1⟩ : ∃ y : State (Fin 2) (Fin 2) (Fin 2),
        LTS.play next (fun _ _ => true) (initial fun _ => none)
          (putRun ++ [.worker 1 ⟨some 0, false, false⟩]) = some y ∧
        (y.worker 0).held = some 0 ∧ (y.worker 1).held = some 0 :=
      ⟨_, rfl, by decide +kernel, by decide +kernel⟩
    exact ⟨y, reach hy, h0, h1⟩

end KcpGo.L5
