import KcpGo.L5Concurrency.Isolation

/-!
# Nothing is queued after `Close`

`Close` flushes and closes `die` under `s.mu`, and every producer reads `die`
and pushes without releasing `s.mu` in between. So whoever has found `die`
open has pushed before it is closed, and the queue that the drain of `Close`
leaves empty stays empty (the comment of `discardPostProcess`,
src/postprocess.go:141-143).

* `mutex_step`: a goroutine inside `s.mu` is the only one.
* `closed_queue_empty`: after `s.Close` is done its queue is empty and nobody
  is about to push.
-/

namespace KcpGo.L5

open KcpGo.L2

variable {σ ι γ : Type} [DecidableEq σ] [DecidableEq ι] [DecidableEq γ]
variable {y y' : State σ ι γ}

/-! ## The session mutex -/

/-- Who is inside the `mu` of a session is its holder. -/
def Mutex (y : State σ ι γ) : Prop := ∀ g s, (y.app g).locks = some s → (y.sess s).mu = some g

omit [DecidableEq σ] [DecidableEq ι] [DecidableEq γ] in
theorem Mutex.alone (h : Mutex y) {g g' : γ} {s : σ} (hg : (y.app g).locks = some s)
    (hg' : (y.app g').locks = some s) : g' = g :=
  Option.some.inj ((h g' s hg').symm.trans (h g s hg))

omit [DecidableEq σ] [DecidableEq ι] [DecidableEq γ] in
theorem AppMove.locks {p p' : App σ} (h : AppMove y p p') : p'.locks = p.locks := by
  cases h <;> rfl

omit [DecidableEq σ] [DecidableEq ι] in
/-- A step of `g` that leaves every mutex and what `g` has locked alone. -/
theorem Mutex.keep (h : Mutex y) {g : γ} {p p' : App σ} (hg : y.app g = p)
    (ha : y'.app = Function.update y.app g p') (hl : p'.locks = p.locks)
    (hm : ∀ s, (y'.sess s).mu = (y.sess s).mu) : Mutex y' := by
  intro g' s hs
  rw [hm]
  refine h g' s ?_
  rw [ha, update_agrees App.locks (hl.trans (congrArg App.locks hg.symm))] at hs
  exact hs

omit [DecidableEq σ] [DecidableEq γ] in
theorem MuMove.cases {g : γ} {s : σ} {l l' : Option σ} {m m' : Option γ} (h : MuMove g s l m l' m') :
    (l' = l ∧ m' = m) ∨ (m = none ∧ l' = some s ∧ m' = some g) ∨ (l = some s ∧ l' = none ∧ m' = none) := by
  cases h <;> simp

omit [DecidableEq ι] in
/-- A step of `g` on the mutex of `s`. -/
theorem Mutex.muMove (h : Mutex y) {g : γ} {s : σ} {x : Session ι γ} {p' : App σ}
    (ha : y'.app = Function.update y.app g p') (hs : y'.sess = Function.update y.sess s x)
    (hm : MuMove g s (y.app g).locks (y.sess s).mu p'.locks x.mu) : Mutex y' := by
  intro g' t ht
  have hold := h g' t
  have hg := h g s
  rw [ha] at ht
  rw [hs]
  -- `g` releases only what it holds and takes only what is free
  rcases hm.cases with ⟨hl, hmu⟩ | ⟨hmu, hl, hmu'⟩ | ⟨hl, hl', hmu'⟩
  · rw [update_agrees Session.mu hmu]
    exact hold (by rwa [update_agrees App.locks hl] at ht)
  all_goals grind [Function.update_apply]

theorem mutex_step {e : Ev σ ι γ} (h : Mutex y) (hs : Step y e y') : Mutex y' := by
  cases hs with
  | stay => exact h
  | admin _ _ _ hm => exact h.muMove rfl rfl hm
  | appMove hg hm => exact h.keep hg rfl hm.locks fun _ => rfl
  | enqueue hg => exact h.keep hg rfl rfl fun _ => rfl
  | die hg =>
    refine h.muMove rfl rfl ?_
    rw [hg]
    exact .unlock
  | push hg | claim hg | gate hg | drain hg | drained hg => exact h.keep hg rfl rfl (update_agrees Session.mu (by rfl))
  | getNew | getOld | dequeue | move | flushClosed | sendClosing | txWrite | requeue => exact h
  | pop | sendLock | txDone | store | discard | reclaim =>
    intro g s hl
    rw [← h g s hl]
    exact update_agrees Session.mu (by rfl) s

/-! ## `die` and the queue -/

/-- A goroutine that has found `die` open and one past `close(s.die)`. -/
def App.Placed (sess : σ → Session ι γ) : App σ → Prop
  | .output s _ _ => (sess s).die = false
  | .gate s => (sess s).die = true
  | .drain s => (sess s).die = true
  | _ => True

section
omit [DecidableEq σ] [DecidableEq ι] [DecidableEq γ]

theorem App.placed_of_quiet {sess : σ → Session ι γ} {p : App σ} (h : p.quiet = true) : p.Placed sess := by
  cases p <;> trivial

theorem AppMove.placed {p p' : App σ} (h : AppMove y p p') : p'.Placed y.sess := by
  cases h with
  | output hd => exact hd
  | full => trivial
  | running => trivial

theorem App.Placed.congr {sess sess' : σ → Session ι γ} {p : App σ} (h : p.Placed sess)
    (hd : ∀ s, (sess' s).die = (sess s).die) : p.Placed sess' := by
  cases p with
  | output s c r => exact (hd s).trans h
  | gate s => exact (hd s).trans h
  | drain s => exact (hd s).trans h
  | _ => trivial

end

structure Shut (y : State σ ι γ) : Prop where
  placed : ∀ g, (y.app g).Placed y.sess
  closed : ∀ s, .closed s ∈ y.log → (y.sess s).die = true ∧ (y.sess s).postQueue.items = []

omit [DecidableEq σ] [DecidableEq ι] [DecidableEq γ] in
theorem Shut.placed_at (h : Shut y) {g : γ} {p : App σ} (hg : y.app g = p) : p.Placed y.sess :=
  hg ▸ h.placed g

omit [DecidableEq σ] [DecidableEq ι] [DecidableEq γ] in
/-- A step that changes no `die`, fills no queue of a closed session and logs
no `Close`. -/
theorem Shut.frame (h : Shut y) (ha : ∀ g, (y'.app g).Placed y.sess)
    (hl : ∀ s, .closed s ∈ y'.log → .closed s ∈ y.log) (hd : ∀ s, (y'.sess s).die = (y.sess s).die)
    (hq : ∀ s, .closed s ∈ y.log → (y.sess s).postQueue.items = [] → (y'.sess s).postQueue.items = []) : Shut y' := by
  refine ⟨fun g => (ha g).congr hd, fun s hs => ?_⟩
  obtain ⟨hc, he⟩ := h.closed s (hl s hs)
  exact ⟨(hd s).trans hc, hq s (hl s hs) he⟩

omit [DecidableEq σ] [DecidableEq ι] in
theorem Shut.placed_update (h : Shut y) {g : γ} {p : App σ} (hp : p.Placed y.sess) (g' : γ) :
    (Function.update y.app g p g').Placed y.sess :=
  update_keeps (App.Placed y.sess) (fun _ => hp) g' (h.placed g')

omit [DecidableEq ι] [DecidableEq γ] in
/-- A change of one session that keeps an empty queue empty. -/
theorem empty_update {s : σ} {x : Session ι γ}
    (hx : (y.sess s).postQueue.items = [] → x.postQueue.items = []) (t : σ)
    (ht : (y.sess t).postQueue.items = []) : (Function.update y.sess s x t).postQueue.items = [] :=
  update_keeps (fun x : Session ι γ => x.postQueue.items = []) hx t ht

omit [DecidableEq ι] [DecidableEq γ] in
/-- A step that changes one session, neither its `die` nor by filling its queue. -/
theorem Shut.touch (h : Shut y) {s : σ} {x : Session ι γ} (hs : y'.sess = Function.update y.sess s x)
    (ha : ∀ g, (y'.app g).Placed y.sess) (hl : ∀ t, .closed t ∈ y'.log → .closed t ∈ y.log)
    (hd : x.die = (y.sess s).die)
    (hq : (y.sess s).postQueue.items = [] → x.postQueue.items = []) : Shut y' := by
  refine h.frame ha hl (fun t => ?_) fun t _ => ?_
  · rw [hs, update_agrees Session.die hd]
  · rw [hs]
    exact empty_update hq t

omit [DecidableEq ι] in
/-- `Close` closes `die`: it holds `mu`, so nobody is about to push. -/
theorem Shut.die (h : Shut y) (hm : Mutex y) {g : γ} {s : σ} (hg : y.app g = .locked s true) :
    Shut ((y.setSess s { y.sess s with die := true, mu := none }).goApp g (.gate s)) := by
  have hmono := update_keeps (f := y.sess) (a := s) (v := { y.sess s with die := true, mu := none })
    (fun x : Session ι γ => x.die = true) fun _ => rfl
  refine ⟨fun g' => ?_, fun t ht => ?_⟩
  · show (Function.update y.app g (.gate s) g').Placed (Function.update y.sess s _)
    by_cases hgg : g' = g
    · rw [hgg, Function.update_self]
      simp only [App.Placed, Function.update_self]
    · rw [Function.update_of_ne hgg]
      cases hg' : y.app g' with
      | output t c r =>
        have hts : t ≠ s := by
          rintro rfl
          exact hgg (hm.alone (by rw [hg]; rfl) (by rw [hg']; rfl))
        simp only [App.Placed, Function.update_of_ne hts]
        exact h.placed_at hg'
      | gate t | drain t => exact hmono t (h.placed_at hg')
      | _ => trivial
  · obtain ⟨hc, he⟩ := h.closed t ht
    exact ⟨hmono t hc, empty_update (by exact id) t he⟩

theorem shut_step {e : Ev σ ι γ} (h : Shut y) (hm : Mutex y) (hs : Step y e y') : Shut y' := by
  have log : ∀ {a : Act σ}, (∀ s, a ≠ .closed s) → ∀ s, .closed s ∈ a :: y.log → .closed s ∈ y.log := by
    intro a ha s hs
    exact (List.mem_cons.mp hs).resolve_left (ha s).symm
  cases hs with
  | stay => exact h
  | admin hx _ hp =>
    refine h.touch rfl (h.placed_update (App.placed_of_quiet hp)) (fun _ => id) hx.die ?_
    rw [hx.postQueue]
    exact id
  | appMove _ hmv => exact h.frame (h.placed_update hmv.placed) (fun _ => id) (fun _ => rfl) fun _ _ => id
  | push hg hq =>
    rename_i g s c r pq
    refine h.frame (h.placed_update trivial) (fun _ => id) (update_agrees Session.die rfl) fun t ht he => ?_
    -- the producer found `die` open, so `Close` of this session is not done
    have hts : t ≠ s := by
      rintro rfl
      have hopen : (y.sess t).die = false := h.placed_at hg
      rw [(h.closed t ht).1] at hopen
      cases hopen
    simp only [State.goApp, State.setSess, Function.update_of_ne hts]
    exact he
  | claim => exact h.touch rfl (h.placed_update trivial) (fun _ => id) rfl id
  | enqueue => exact h.frame (h.placed_update trivial) (fun _ => id) (fun _ => rfl) fun _ _ => id
  | die hg => exact h.die hm hg
  | gate hg =>
    have hp := h.placed_at hg
    exact h.touch rfl (h.placed_update hp) (fun _ => id) rfl id
  | drain hg hq =>
    refine h.touch rfl (h.placed_update (h.placed_at hg)) (fun _ => id) rfl fun he => ?_
    rw [hq] at he
    cases he
  | drained hg hq =>
    rename_i g s
    have hdie := update_agrees (f := y.sess) (a := s) (v := { y.sess s with dieOnce := .done }) Session.die rfl
    refine ⟨fun g' => (h.placed_update (p := .idle) trivial g').congr hdie, fun t ht => ?_⟩
    have ht' : (y.sess t).die = true ∧ (y.sess t).postQueue.items = [] := by
      rcases List.mem_cons.mp ht with ht | ht
      · cases ht
        exact ⟨h.placed_at hg, hq⟩
      · exact h.closed t ht
    exact ⟨(hdie t).trans ht'.1, empty_update (by exact id) t ht'.2⟩
  | getNew | getOld | dequeue | move | flushClosed | sendClosing | requeue =>
    exact h.frame h.placed (fun _ => id) (fun _ => rfl) fun _ _ => id
  | txWrite => exact h.frame h.placed (log (by simp)) (fun _ => rfl) fun _ _ => id
  | pop _ hq =>
    refine h.touch rfl h.placed (log (by simp)) rfl fun he => ?_
    rw [hq] at he
    cases he
  | discard _ hq =>
    refine h.touch rfl h.placed (fun _ => id) rfl fun he => ?_
    rw [hq] at he
    cases he
  | sendLock | txDone | store | reclaim => exact h.touch rfl h.placed (fun _ => id) rfl id

/-- **After `Close`.** Once `s.Close` is done, the queue of `s` is empty, its
`die` is closed, and no goroutine is about to push to it. -/
theorem closed_queue_empty (fec : σ → Option (Nat × Nat)) (y : State σ ι γ) (hr : (system fec).Reachable y) (s : σ)
    (hs : .closed s ∈ y.log) :
    (y.sess s).die = true ∧ (y.sess s).postQueue.items = [] ∧ ∀ g c r, y.app g ≠ .output s c r := by
  have hind : (system fec).Inductive fun y : State σ ι γ => Mutex y ∧ Shut y := by
    refine ⟨fun y hy => ?_, fun _ _ _ h hs => ⟨mutex_step h.1 (step_of_next hs), shut_step h.2 h.1 (step_of_next hs)⟩⟩
    replace hy : y = initial fec := hy
    rw [hy]
    refine ⟨fun g s hl => ?_, fun g => trivial, fun s hs => ?_⟩
    · cases hl
    · cases hs
  obtain ⟨-, h⟩ := hind.reachable y hr
  obtain ⟨hd, hq⟩ := h.closed s hs
  refine ⟨hd, hq, fun g c r hg => ?_⟩
  have hopen : (y.sess s).die = false := h.placed_at hg
  rw [hd] at hopen
  cases hopen

/-- `Close` while a worker has taken one of two requests. -/
theorem closed_queue_empty_stolen :
    ∃ y : State (Fin 2) (Fin 2) (Fin 2), .pop 0 ⟨[1], false⟩ ∈ y.log ∧ .closed 0 ∈ y.log ∧
    (y.sess 0).postQueue.items = [] := by
  obtain ⟨y, hy, hpop, hclosed⟩ : ∃ y : State (Fin 2) (Fin 2) (Fin 2),
      LTS.play next (fun _ _ => true) (initial fun _ => none) stolenRun = some y ∧
        .pop 0 ⟨[1], false⟩ ∈ y.log ∧ .closed 0 ∈ y.log :=
    ⟨_, rfl, by decide +kernel, by decide +kernel⟩
  exact ⟨y, hpop, hclosed, (closed_queue_empty _ y
    ⟨_, stolenRun, rfl, LTS.play_run (fun _ _ _ _ hn => hn) hy⟩ 0 hclosed).2.1⟩

end KcpGo.L5
