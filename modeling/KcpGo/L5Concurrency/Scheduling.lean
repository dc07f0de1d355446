import KcpGo.Core.Claim
import KcpGo.L5Concurrency.Steps
import Mathlib.Data.List.Nodup

/-!
# Each session is scheduled once, and none is forgotten

`ppRunning` is a claim on a session. It is held by the entry in `ppQueue`, by
the worker that serves the session, or by the producer between the
compare-and-swap of `kickPostProcess` and its `ppEnqueue`; `Tok` says that
exactly one of them holds it while the flag is set. `Woken` is the other half
of the handoff: packets that wait in an open session without a claim have
someone about to look at them, a producer that has pushed or a worker that has
cleared the flag and not yet looked again.

* `tok_step`, `woken_step`: every step keeps both.
* `scheduling`: what follows for every state that the system can reach.
-/

namespace KcpGo.L5

open KcpGo.L2

variable {σ ι γ : Type}
variable {y y' : State σ ι γ} {p p' : Phase σ}

/-! ## Who holds the claim -/

/-- The session a worker serves: from the dequeue until `ppEnqueue` or
`ppRunning.Store(false)`. -/
def Phase.serves : Phase σ → Option σ
  | .took s => some s
  | .loop s _ => some s
  | .built s _ => some s
  | .flush s _ => some s
  | .send s _ => some s
  | .tx s _ _ => some s
  | .recheck s => some s
  | .requeue s => some s
  | .store s _ => some s
  | _ => none

/-- The session for which a worker is inside `finishPostProcess`, past the
`Store`. -/
def Phase.finishes : Phase σ → Option σ
  | .stored s _ => some s
  | .discard s => some s
  | .relook s _ => some s
  | .reclaim s _ => some s
  | _ => none

def Worker.serves : Worker σ → Option σ
  | .start => none
  | .run _ p => p.serves

def Worker.finishes : Worker σ → Option σ
  | .start => none
  | .run _ p => p.finishes

/-- The session that a producer has claimed and not yet enqueued. -/
def App.claims : App σ → Option σ
  | .claimed s _ => some s
  | _ => none

/-- The session that a producer has pushed to, before its claim. -/
def App.pushes : App σ → Option σ
  | .pushed s _ => some s
  | _ => none

/-- The session that a producer has pushed to and for which its
`kickPostProcess` has not returned. -/
def App.kicks : App σ → Option σ
  | .pushed s _ => some s
  | .claimed s _ => some s
  | _ => none

inductive Holder (ι γ : Type) where
  | queue
  | worker (i : ι)
  | app (g : γ)
  deriving DecidableEq

def Holds (y : State σ ι γ) (s : σ) : Holder ι γ → Prop
  | .queue => s ∈ y.ppQueue.items
  | .worker i => (y.worker i).serves = some s
  | .app g => (y.app g).claims = some s

/-- A worker that ignores the result of `finishPostProcess` called it for a
closed session, so the result is false. -/
def Phase.Heeded (sess : σ → Session ι γ) : Phase σ → Prop
  | .store s u => u = false → (sess s).die = true
  | .stored s u => u = false → (sess s).die = true
  | .relook _ u => u = true
  | .reclaim _ u => u = true
  | _ => True

structure Tok (y : State σ ι γ) : Prop where
  claimed : ∀ s, Claimed (y.sess s).ppRunning (Holds y s)
  nodup : y.ppQueue.items.Nodup

def Heeds (y : State σ ι γ) : Prop := ∀ i w p, y.worker i = .run w p → p.Heeded y.sess

theorem App.claims_of_quiet {p : App σ} (h : p.quiet = true) : p.claims = none := by
  cases p <;> first | rfl | cases h

theorem AppMove.claims {p p' : App σ} (h : AppMove y p p') : p'.claims = p.claims := by
  cases h <;> rfl

theorem Move.serves {w : Nat} (h : Move y w p p') : p'.serves = p.serves := by
  cases h <;> rfl

theorem Phase.serves_resume (s : σ) (k : Option Nat) : (Phase.resume s k).serves = some s := by
  cases k <;> rfl

theorem Phase.heeded_resume (sess : σ → Session ι γ) (s : σ) (k : Option Nat) : (Phase.resume s k).Heeded sess := by
  cases k <;> trivial

theorem Move.heeded {w : Nat} (h : Move y w p p') (hp : p.Heeded y.sess) :
    p'.Heeded y.sess := by
  cases h with
  | tookClosed hd => exact fun _ => hd
  | empty _ => exact fun hu => by cases hu
  | finish => exact fun hu => by cases hu
  | storedOpen hd =>
    rename_i s u
    cases u with
    | true => rfl
    | false => rw [hp rfl] at hd; cases hd
  | relook => exact hp
  | _ => trivial

theorem Phase.Heeded.mono {sess sess' : σ → Session ι γ} (h : p.Heeded sess)
    (hd : ∀ s, (sess s).die = true → (sess' s).die = true) : p.Heeded sess' := by
  cases p with
  | store s u => exact fun hu => hd s (h hu)
  | stored s u => exact fun hu => hd s (h hu)
  | relook s u => exact h
  | reclaim s u => exact h
  | _ => trivial

/-- Nothing happens to any claim. -/
theorem Tok.frame (h : Tok y) (hq : y'.ppQueue.items = y.ppQueue.items)
    (hw : ∀ i, (y'.worker i).serves = (y.worker i).serves) (ha : ∀ g, (y'.app g).claims = (y.app g).claims)
    (hr : ∀ s, (y'.sess s).ppRunning = (y.sess s).ppRunning) : Tok y' := by
  refine ⟨fun s => ?_, hq ▸ h.nodup⟩
  rw [hr]
  refine (h.claimed s).congr fun x => ?_
  cases x with
  | queue => simp only [Holds, hq]
  | worker i => simp only [Holds, hw]
  | app g => simp only [Holds, ha]

/-- Something happens to the claim on `s`, and to no other. -/
theorem Tok.change (h : Tok y) (s : σ) (hs : Claimed (y'.sess s).ppRunning (Holds y' s))
    (hr : ∀ t, t ≠ s → (y'.sess t).ppRunning = (y.sess t).ppRunning)
    (ho : ∀ t, t ≠ s → ∀ x, Holds y' t x ↔ Holds y t x) (hn : y'.ppQueue.items.Nodup) :
    Tok y' := by
  refine ⟨fun t => ?_, hn⟩
  by_cases ht : t = s
  · rw [ht]
    exact hs
  · rw [hr t ht]
    exact (h.claimed t).congr (ho t ht)

theorem Tok.not_queued (h : Tok y) {s : σ} {x : Holder ι γ} (hx : Holds y s x)
    (hne : x ≠ .queue) : s ∉ y.ppQueue.items := fun hq =>
  hne ((h.claimed s).unique x .queue hx hq)

/-! ## The claim in one step -/

variable [DecidableEq σ] [DecidableEq ι] [DecidableEq γ]

omit [DecidableEq σ] in
theorem serves_update (f : ι → Worker σ) (i : ι) (v : Worker σ) (j : ι) :
    (Function.update f i v j).serves = if j = i then v.serves else (f j).serves := by
  rw [Function.update_apply]
  split <;> rfl

omit [DecidableEq σ] in
theorem claims_update (f : γ → App σ) (g : γ) (v : App σ) (j : γ) :
    (Function.update f g v j).claims = if j = g then v.claims else (f j).claims := by
  rw [Function.update_apply]
  split <;> rfl

omit [DecidableEq ι] in
/-- A producer claims `s`. -/
theorem Tok.claim (h : Tok y) {g : γ} {s : σ} {c : Bool} (hg : y.app g = .pushed s c)
    (hr : (y.sess s).ppRunning = false) :
    Tok ((y.setSess s { y.sess s with ppRunning := true }).goApp g (.claimed s c)) := by
  have hs := h.claimed s
  rw [hr] at hs
  refine h.change s ?_ (fun t ht => ?_) (fun t ht x => ?_) h.nodup
  · simp only [State.goApp, State.setSess, Function.update_self]
    refine hs.claim (a := .app g) fun x => ?_
    cases x with
    | queue => simp [Holds]
    | worker i => simp [Holds]
    | app g' =>
      simp only [Holds, claims_update, Holder.app.injEq]
      by_cases hgg : g' = g <;> simp [hgg, App.claims]
  · simp only [State.goApp, State.setSess, Function.update_of_ne ht]
  · cases x with
    | queue => rfl
    | worker i => rfl
    | app g' =>
      simp only [Holds, State.goApp, State.setSess, claims_update]
      by_cases hgg : g' = g
      · simp [hgg, hg, App.claims, Ne.symm ht]
      · simp [hgg]

section
omit [DecidableEq γ]

/-- A worker that looked again claims `s`. -/
theorem Tok.reclaim (h : Tok y) {i : ι} {w : Nat} {s : σ} {u : Bool}
    (hw : y.worker i = .run w (.reclaim s u)) (hr : (y.sess s).ppRunning = false) :
    Tok ((y.setSess s { y.sess s with ppRunning := true }).goWorker i w (.requeue s)) := by
  have hs := h.claimed s
  rw [hr] at hs
  refine h.change s ?_ (fun t ht => ?_) (fun t ht x => ?_) h.nodup
  · simp only [State.goWorker, State.setSess, Function.update_self]
    refine hs.claim (a := .worker i) fun x => ?_
    cases x with
    | queue => simp [Holds]
    | app g => simp [Holds]
    | worker j =>
      simp only [Holds, serves_update, Holder.worker.injEq]
      by_cases hji : j = i <;> simp [hji, Worker.serves, Phase.serves]
  · simp only [State.goWorker, State.setSess, Function.update_of_ne ht]
  · cases x with
    | queue => rfl
    | app g => rfl
    | worker j =>
      simp only [Holds, State.goWorker, State.setSess, serves_update]
      by_cases hji : j = i
      · simp [hji, hw, Worker.serves, Phase.serves, Ne.symm ht]
      · simp [hji]

/-- A worker gives up the claim. -/
theorem Tok.release (h : Tok y) {i : ι} {w : Nat} {s : σ} {u : Bool}
    (hw : y.worker i = .run w (.store s u)) :
    Tok ((y.setSess s { y.sess s with ppRunning := false }).goWorker i w (.stored s u)) := by
  have hi : Holds y s (.worker i) := by simp [Holds, hw, Worker.serves, Phase.serves]
  refine h.change s ?_ (fun t ht => ?_) (fun t ht x => ?_) h.nodup
  · simp only [State.goWorker, State.setSess, Function.update_self]
    refine (h.claimed s).release hi fun x => ?_
    cases x with
    | queue => simp [Holds]
    | app g => simp [Holds]
    | worker j =>
      simp only [Holds, serves_update, Holder.worker.injEq, ne_eq]
      by_cases hji : j = i <;> simp [hji, Worker.serves, Phase.serves]
  · simp only [State.goWorker, State.setSess, Function.update_of_ne ht]
  · cases x with
    | queue => rfl
    | app g => rfl
    | worker j =>
      simp only [Holds, State.goWorker, State.setSess, serves_update]
      by_cases hji : j = i
      · simp [hji, hw, Worker.serves, Phase.serves, Ne.symm ht]
      · simp [hji]

omit [DecidableEq σ] in
/-- A worker takes a session from the queue. -/
theorem Tok.dequeue (h : Tok y) {i : ι} {w : Nat} {s : σ} {pq : PPQueue σ}
    (hw : y.worker i = .run w .wait) (hq : y.ppQueue.items = s :: pq.items) :
    Tok ({ y with ppQueue := pq }.goWorker i w (.took s)) := by
  have hn := h.nodup
  rw [hq, List.nodup_cons] at hn
  refine h.change s ?_ (fun _ _ => rfl) (fun t ht x => ?_) hn.2
  · refine (h.claimed s).pass (a := .queue) (b := .worker i) (by simp [Holds, hq]) fun x => ?_
    cases x with
    | queue => simpa [Holds, State.goWorker] using hn.1
    | app g => simp [Holds, State.goWorker]
    | worker j =>
      simp only [Holds, State.goWorker, serves_update, Holder.worker.injEq]
      by_cases hji : j = i <;> simp [hji, Worker.serves, Phase.serves]
  · cases x with
    | queue => simp [Holds, State.goWorker, hq, ht]
    | app g => rfl
    | worker j =>
      simp only [Holds, State.goWorker, serves_update]
      by_cases hji : j = i
      · simp [hji, hw, Worker.serves, Phase.serves, Ne.symm ht]
      · simp [hji]

end

omit [DecidableEq σ] [DecidableEq ι] [DecidableEq γ] in
theorem Tok.nodup_enqueue (h : Tok y) {s : σ} {x : Holder ι γ} (hx : Holds y s x)
    (hne : x ≠ .queue) : (PPQueue.enqueue y.ppQueue s).items.Nodup := by
  rw [PPQueue.enqueue_items]
  exact List.nodup_append.mpr ⟨h.nodup, List.nodup_singleton s, fun a ha b hb hab => by
    rw [List.mem_singleton.mp hb] at hab
    exact h.not_queued hx hne (hab ▸ ha)⟩

omit [DecidableEq σ] [DecidableEq ι] in
/-- A producer puts a session it claimed into the queue. -/
theorem Tok.enqueue (h : Tok y) {g : γ} {s : σ} {c : Bool} (hg : y.app g = .claimed s c) :
    Tok ((y.ppEnqueue s).goApp g (.locked s c)) := by
  have hs : Holds y s (.app g) := by simp [Holds, hg, App.claims]
  refine h.change s ?_ (fun _ _ => rfl) (fun t ht x => ?_) (h.nodup_enqueue hs (by simp))
  · refine (h.claimed s).pass (b := .queue) hs fun x => ?_
    cases x with
    | queue => simp [Holds, State.goApp, State.ppEnqueue]
    | worker i => simp [Holds, State.goApp, State.ppEnqueue]
    | app g' =>
      simp only [Holds, State.goApp, State.ppEnqueue, claims_update]
      by_cases hgg : g' = g <;> simp [hgg, App.claims]
  · cases x with
    | queue => simp [Holds, State.goApp, State.ppEnqueue, ht]
    | worker i => rfl
    | app g' =>
      simp only [Holds, State.goApp, State.ppEnqueue, claims_update]
      by_cases hgg : g' = g
      · simp [hgg, hg, App.claims, Ne.symm ht]
      · simp [hgg]

omit [DecidableEq σ] [DecidableEq γ] in
/-- A worker puts the session it serves back into the queue. -/
theorem Tok.requeue (h : Tok y) {i : ι} {w : Nat} {s : σ} (hw : y.worker i = .run w (.requeue s)) :
    Tok ((y.ppEnqueue s).goWorker i w .wait) := by
  have hs : Holds y s (.worker i) := by simp [Holds, hw, Worker.serves, Phase.serves]
  refine h.change s ?_ (fun _ _ => rfl) (fun t ht x => ?_) (h.nodup_enqueue hs (by simp))
  · refine (h.claimed s).pass (b := .queue) hs fun x => ?_
    cases x with
    | queue => simp [Holds, State.goWorker, State.ppEnqueue]
    | app g => simp [Holds, State.goWorker, State.ppEnqueue]
    | worker j =>
      simp only [Holds, State.goWorker, State.ppEnqueue, serves_update]
      by_cases hji : j = i <;> simp [hji, Worker.serves, Phase.serves]
  · cases x with
    | queue => simp [Holds, State.goWorker, State.ppEnqueue, ht]
    | app g => rfl
    | worker j =>
      simp only [Holds, State.goWorker, State.ppEnqueue, serves_update]
      by_cases hji : j = i
      · simp [hji, hw, Worker.serves, Phase.serves, Ne.symm ht]
      · simp [hji]

omit [DecidableEq σ] [DecidableEq γ] in
/-- A step of one worker that keeps its claim, and all flags. -/
theorem Tok.worker (h : Tok y) {i : ι} {w : Nat} {v : Worker σ}
    (hi : y.worker i = v) (hc : p'.serves = v.serves) (hw : y'.worker = Function.update y.worker i (.run w p'))
    (hq : y'.ppQueue = y.ppQueue) (ha : y'.app = y.app) (hr : ∀ s, (y'.sess s).ppRunning = (y.sess s).ppRunning) :
    Tok y' := by
  refine h.frame (by rw [hq]) (fun j => ?_) (fun g => by rw [ha]) hr
  have hv : Worker.serves (.run w p') = (y.worker i).serves := hc.trans (congrArg Worker.serves hi.symm)
  rw [hw]
  exact update_agrees Worker.serves hv j

omit [DecidableEq σ] [DecidableEq ι] in
/-- A step of one producer that keeps its claim, and all flags. -/
theorem Tok.app (h : Tok y) {g : γ} {p p' : App σ}
    (hp : y.app g = p) (hg : y'.app = Function.update y.app g p') (hc : p'.claims = p.claims)
    (hq : y'.ppQueue = y.ppQueue) (hw : y'.worker = y.worker)
    (hr : ∀ s, (y'.sess s).ppRunning = (y.sess s).ppRunning) : Tok y' := by
  refine h.frame (by rw [hq]) (fun j => by rw [hw]) (fun j => ?_) hr
  rw [hg]
  exact update_agrees App.claims (hc.trans (congrArg App.claims hp.symm)) j

theorem tok_step {e : Ev σ ι γ} (h : Tok y) (hu : Heeds y) (hs : Step y e y') : Tok y' := by
  cases hs with
  | stay => exact h
  | admin hx hp hp' =>
    exact h.app rfl rfl ((App.claims_of_quiet hp').trans (App.claims_of_quiet hp).symm) rfl rfl
      (update_agrees Session.ppRunning hx.ppRunning)
  | appMove hg hm => exact h.app hg rfl hm.claims rfl rfl fun _ => rfl
  | push hg _ => exact h.app hg rfl rfl rfl rfl (update_agrees Session.ppRunning rfl)
  | claim hg hr => exact h.claim hg hr
  | enqueue hg => exact h.enqueue hg
  | die hg => exact h.app hg rfl rfl rfl rfl (update_agrees Session.ppRunning rfl)
  | gate hg _ => exact h.app hg rfl rfl rfl rfl (update_agrees Session.ppRunning rfl)
  | drain hg _ => exact h.app hg rfl rfl rfl rfl (update_agrees Session.ppRunning rfl)
  | drained hg => exact h.app hg rfl rfl rfl rfl (update_agrees Session.ppRunning rfl)
  | getNew hw _ => exact h.worker hw rfl rfl rfl rfl fun _ => rfl
  | getOld hw _ _ => exact h.worker hw rfl rfl rfl rfl fun _ => rfl
  | dequeue hw hq => exact h.dequeue hw hq
  | move hw hm => exact h.worker hw hm.serves rfl rfl rfl fun _ => rfl
  | pop hw _ => exact h.worker hw rfl rfl rfl rfl (update_agrees Session.ppRunning rfl)
  | flushClosed hw _ => exact h.worker hw rfl rfl rfl rfl fun _ => rfl
  | sendClosing hw _ => exact h.worker hw (Phase.serves_resume _ _) rfl rfl rfl fun _ => rfl
  | sendLock hw _ _ => exact h.worker hw rfl rfl rfl rfl (update_agrees Session.ppRunning rfl)
  | txDone hw => exact h.worker hw (Phase.serves_resume _ _) rfl rfl rfl (update_agrees Session.ppRunning rfl)
  | txWrite hw => exact h.worker hw rfl rfl rfl rfl fun _ => rfl
  | requeue hw => exact h.requeue hw
  | store hw => exact h.release hw
  | discard hw _ => exact h.worker hw rfl rfl rfl rfl (update_agrees Session.ppRunning rfl)
  | reclaim hw hr =>
    have hu' : _ = true := hu _ _ _ hw
    rw [hu', if_pos rfl]
    exact h.reclaim hw hr

/-! ## Results that are ignored -/

omit [DecidableEq σ] [DecidableEq γ] in
/-- A step that moves one worker keeps the others' obligations. -/
theorem Heeds.worker (h : Heeds y) (hd : ∀ s, (y.sess s).die = true → (y'.sess s).die = true)
    {i : ι} {w : Nat} (hw : y'.worker = Function.update y.worker i (.run w p'))
    (hp : p'.Heeded y'.sess) : Heeds y' := by
  intro j v p hj
  rw [hw] at hj
  by_cases hji : j = i
  · rw [hji, Function.update_self] at hj
    cases hj
    exact hp
  · rw [Function.update_of_ne hji] at hj
    exact (h j v p hj).mono hd

theorem heeds_step {e : Ev σ ι γ} (h : Heeds y) (hs : Step y e y') : Heeds y' := by
  have hd := hs.die_mono
  cases hs with
  | stay | admin | appMove | push | claim | enqueue | die | gate | drain | drained =>
    exact fun i w p hw => (h i w p hw).mono hd
  | getNew | getOld | dequeue | pop | flushClosed | sendLock | txWrite | requeue | discard =>
    exact h.worker hd rfl trivial
  | move hw hm => exact h.worker hd rfl (hm.heeded (h _ _ _ hw))
  | sendClosing | txDone => exact h.worker hd rfl (Phase.heeded_resume _ _ _)
  | store hw =>
    refine h.worker hd rfl fun hu => hd _ ?_
    exact h _ _ _ hw hu
  | reclaim =>
    rename_i u _ _
    refine h.worker hd rfl ?_
    cases u <;> trivial

/-! ## Nobody is forgotten -/

/-- Nothing needs to be done for the session, or someone has the claim. -/
def Session.Settled (x : Session ι γ) : Prop :=
  x.die = true ∨ x.postQueue.items = [] ∨ x.ppRunning = true

/-- The session a worker is about to look at again. -/
def Phase.looks : Phase σ → Option σ
  | .stored s _ => some s
  | .relook s _ => some s
  | .reclaim s _ => some s
  | _ => none

def Worker.looks : Worker σ → Option σ
  | .start => none
  | .run _ p => p.looks

def Woken (y : State σ ι γ) : Prop :=
  ∀ s, (y.sess s).Settled ∨ (∃ g, (y.app g).pushes = some s) ∨ ∃ i, (y.worker i).looks = some s

omit [DecidableEq σ] in
theorem App.pushes_of_quiet {p : App σ} (h : p.quiet = true) : p.pushes = none := by
  cases p <;> first | rfl | cases h

omit [DecidableEq σ] [DecidableEq ι] [DecidableEq γ] in
/-- A worker stops looking only at a session that is settled. -/
theorem Move.looks {w : Nat} (h : Move y w p p') {s : σ} (hp : p.looks = some s) :
    (y.sess s).Settled ∨ p'.looks = some s := by
  cases h <;> cases hp
  case storedClosed hd => exact .inl (.inl hd)
  case storedOpen hd => exact .inr rfl
  case relook => exact .inr rfl
  case idle hq => exact .inl (.inr (.inl hq))
  case running hr => exact .inl (.inr (.inr hr))

omit [DecidableEq σ] [DecidableEq ι] [DecidableEq γ] in
theorem AppMove.pushes {p p' : App σ} (h : AppMove y p p') {s : σ} (hp : p.pushes = some s) :
    (y.sess s).Settled ∨ p'.pushes = some s := by
  cases h <;> cases hp
  case running hr => exact .inl (.inr (.inr hr))

omit [DecidableEq σ] [DecidableEq ι] in
/-- A producer's step: it may unsettle or leave only what it has pushed to. -/
theorem Woken.app (h : Woken y) {g : γ} {p p' : App σ} (hp : y.app g = p)
    (hg : y'.app = Function.update y.app g p') (hw : y'.worker = y.worker)
    (hs : ∀ s, (y.sess s).Settled → (y'.sess s).Settled ∨ p'.pushes = some s)
    (hl : ∀ s, p.pushes = some s → (y'.sess s).Settled ∨ p'.pushes = some s) : Woken y' := by
  intro s
  have hnew : p'.pushes = some s → ∃ g, (y'.app g).pushes = some s := fun hn =>
    ⟨g, by rw [hg, Function.update_self]; exact hn⟩
  rcases h s with hset | ⟨g', hg'⟩ | ⟨i, hi⟩
  · exact (hs s hset).imp id fun hn => .inl (hnew hn)
  · by_cases hgg : g' = g
    · rw [hgg, hp] at hg'
      exact (hl s hg').imp id fun hn => .inl (hnew hn)
    · refine .inr (.inl ⟨g', ?_⟩)
      rw [hg, Function.update_of_ne hgg]
      exact hg'
  · exact .inr (.inr ⟨i, by rw [hw]; exact hi⟩)

omit [DecidableEq σ] [DecidableEq γ] in
/-- A worker's step, likewise. -/
theorem Woken.worker (h : Woken y) {i : ι} {v : Worker σ} {w : Nat}
    (hv : y.worker i = v) (hw : y'.worker = Function.update y.worker i (.run w p')) (ha : y'.app = y.app)
    (hs : ∀ s, (y.sess s).Settled → (y'.sess s).Settled ∨ p'.looks = some s)
    (hl : ∀ s, v.looks = some s → (y'.sess s).Settled ∨ p'.looks = some s) : Woken y' := by
  intro s
  have hnew : p'.looks = some s → ∃ i, (y'.worker i).looks = some s := fun hn =>
    ⟨i, by rw [hw, Function.update_self]; exact hn⟩
  rcases h s with hset | ⟨g, hg⟩ | ⟨j, hj⟩
  · exact (hs s hset).imp id fun hn => .inr (hnew hn)
  · exact .inr (.inl ⟨g, by rw [ha]; exact hg⟩)
  · by_cases hji : j = i
    · rw [hji, hv] at hj
      exact (hl s hj).imp id fun hn => .inr (hnew hn)
    · refine .inr (.inr ⟨j, ?_⟩)
      rw [hw, Function.update_of_ne hji]
      exact hj

omit [DecidableEq ι] [DecidableEq γ] in
/-- A change of one session that settles it no less. -/
theorem settled_update {s : σ} {x : Session ι γ} (hx : (y.sess s).Settled → x.Settled) (t : σ)
    (ht : (y.sess t).Settled) : (Function.update y.sess s x t).Settled :=
  update_keeps Session.Settled hx t ht

omit [DecidableEq ι] [DecidableEq γ] in
/-- A settled session stays so when a request is taken from its queue. -/
theorem Session.Settled.shrink {x x' : Session ι γ} {r : SendRequest} {l : List SendRequest} (h : x.Settled)
    (hq : x.postQueue.items = r :: l) (hd : x'.die = x.die) (hr : x'.ppRunning = x.ppRunning) : x'.Settled := by
  rcases h with h | h | h
  · exact .inl (hd.trans h)
  · rw [hq] at h
    cases h
  · exact .inr (.inr (hr.trans h))

theorem woken_step {e : Ev σ ι γ} (h : Woken y) (hs : Step y e y') : Woken y' := by
  -- a goroutine that neither pushed nor looked leaves nothing undone
  have none : ∀ {P : σ → Prop} (s : σ), (Option.none : Option σ) = some s → P s := fun s hn => by cases hn
  cases hs with
  | stay => exact h
  | admin hx hp hp' =>
    refine h.app rfl rfl rfl (fun t ht => .inl (settled_update ?_ t ht)) fun t ht => ?_
    · unfold Session.Settled
      rw [hx.die, hx.postQueue, hx.ppRunning]
      exact id
    · rw [App.pushes_of_quiet hp] at ht
      cases ht
  | appMove hg hm => exact h.app hg rfl rfl (fun _ => .inl) fun s => hm.pushes
  | push hg hq =>
    rename_i g s c r pq
    refine h.app hg rfl rfl (fun t ht => ?_) none
    by_cases hts : t = s
    · exact .inr (congrArg some hts.symm)
    · refine .inl ?_
      simp only [State.goApp, State.setSess, Function.update_of_ne hts]
      exact ht
  | claim hg hr =>
    refine h.app hg rfl rfl (fun t ht => .inl (settled_update (fun _ => .inr (.inr rfl)) t ht)) fun t ht => .inl ?_
    cases ht
    simp only [State.goApp, State.setSess, Function.update_self]
    exact .inr (.inr rfl)
  | enqueue hg => exact h.app hg rfl rfl (fun _ => .inl) none
  | die hg => exact h.app hg rfl rfl (fun t ht => .inl (settled_update (fun _ => .inl rfl) t ht)) none
  | gate hg | drained hg =>
    refine h.app hg rfl rfl (fun t ht => .inl (settled_update ?_ t ht)) none
    exact id
  | drain hg hq =>
    refine h.app hg rfl rfl (fun t ht => .inl (settled_update ?_ t ht)) none
    exact fun hx => hx.shrink hq rfl rfl
  | getNew hw | getOld hw | dequeue hw | flushClosed hw | sendClosing hw | txWrite hw | requeue hw =>
    exact h.worker hw rfl rfl (fun _ => .inl) none
  | sendLock hw | txDone hw =>
    refine h.worker hw rfl rfl (fun t ht => .inl (settled_update ?_ t ht)) none
    exact id
  | pop hw hq | discard hw hq =>
    refine h.worker hw rfl rfl (fun t ht => .inl (settled_update ?_ t ht)) none
    exact fun hx => hx.shrink hq rfl rfl
  | move hw hm => exact h.worker hw rfl rfl (fun _ => .inl) fun s => hm.looks
  | store hw =>
    rename_i i w s u
    refine h.worker hw rfl rfl (fun t ht => ?_) none
    by_cases hts : t = s
    · exact .inr (congrArg some hts.symm)
    · refine .inl ?_
      simp only [State.goWorker, State.setSess, Function.update_of_ne hts]
      exact ht
  | reclaim hw hr =>
    refine h.worker hw rfl rfl (fun t ht => .inl (settled_update (fun _ => .inr (.inr rfl)) t ht)) fun t ht => .inl ?_
    cases ht
    simp only [State.goWorker, State.setSess, Function.update_self]
    exact .inr (.inr rfl)

/-! ## Every run -/

structure Scheduled (y : State σ ι γ) : Prop where
  tok : Tok y
  heeds : Heeds y
  woken : Woken y

omit [DecidableEq σ] [DecidableEq ι] [DecidableEq γ] in
theorem scheduled_initial (fec : σ → Option (Nat × Nat)) : Scheduled (initial fec : State σ ι γ) := by
  refine ⟨⟨fun s => Claimed.none.congr fun x => ?_, List.nodup_nil⟩, fun i w p hw => ?_,
    fun s => .inl (.inr (.inl rfl))⟩
  · cases x <;> simp [Holds, initial, Worker.serves, App.claims]
  · cases hw

theorem Scheduled.step {e : Ev σ ι γ} (h : Scheduled y) (hs : Step y e y') : Scheduled y' :=
  ⟨tok_step h.tok h.heeds hs, heeds_step h.heeds hs, woken_step h.woken hs⟩

theorem scheduled_reachable {fec : σ → Option (Nat × Nat)} (hr : (system fec).Reachable y) :
    Scheduled y :=
  LTS.Inductive.reachable
    ⟨fun y hy => by rw [hy]; exact scheduled_initial fec, fun _ _ _ h hs => h.step (step_of_next hs)⟩ y hr

section
omit [DecidableEq σ]

theorem App.kicks_of_pushes {p : App σ} {s : σ} (h : p.pushes = some s) : p.kicks = some s := by
  cases p <;> first | exact h | cases h

theorem App.kicks_of_claims {p : App σ} {s : σ} (h : p.claims = some s) : p.kicks = some s := by
  cases p <;> first | exact h | cases h

theorem Worker.finishes_of_looks {v : Worker σ} {s : σ} (h : v.looks = some s) : v.finishes = some s := by
  cases v with
  | start => cases h
  | run w p => cases p <;> first | exact h | cases h

end

omit [DecidableEq ι] [DecidableEq γ] [DecidableEq σ] in
/-- Packets that wait with nobody about to look at them wait behind a claim. -/
theorem Scheduled.waiting (h : Scheduled y) {s : σ} (hd : (y.sess s).die = false)
    (hq : (y.sess s).postQueue.items ≠ []) (hp : ∀ g, (y.app g).pushes ≠ some s)
    (hf : ∀ i, (y.worker i).finishes ≠ some s) : (y.sess s).ppRunning = true ∧ ∃ x, Holds y s x := by
  have hrun : (y.sess s).ppRunning = true := by
    rcases h.woken s with (hc | he | hr) | ⟨g, hg⟩ | ⟨i, hi⟩
    · rw [hc] at hd
      cases hd
    · exact absurd he hq
    · exact hr
    · exact absurd hg (hp g)
    · exact absurd (Worker.finishes_of_looks hi) (hf i)
  exact ⟨hrun, (h.tok.claimed s).held.mp hrun⟩

/-- **The scheduling protocol.** In every state that any interleaving of
producers, workers and `Close` reaches: no session is twice in `ppQueue`,
queued and served at once, or served by two workers. If an open session has
packets, no producer is between its push and the end of its
`kickPostProcess`, and no worker is inside `finishPostProcess` for it, then
the flag is set and the session is queued or served. Inside
`kickPostProcess`, after the claim, the producer itself is the one about to
queue it. -/
theorem scheduling (fec : σ → Option (Nat × Nat)) (y : State σ ι γ) (hr : (system fec).Reachable y) :
    y.ppQueue.items.Nodup ∧ ∀ s,
      (∀ i, (y.worker i).serves = some s → s ∉ y.ppQueue.items) ∧
      (∀ i j, (y.worker i).serves = some s → (y.worker j).serves = some s → i = j) ∧
      ((y.sess s).die = false → (y.sess s).postQueue.items ≠ [] → (∀ g, (y.app g).kicks ≠ some s) →
        (∀ i, (y.worker i).finishes ≠ some s) →
        (y.sess s).ppRunning = true ∧ (s ∈ y.ppQueue.items ∨ ∃ i, (y.worker i).serves = some s)) ∧
      ((y.sess s).die = false → (y.sess s).postQueue.items ≠ [] → (∀ g, (y.app g).pushes ≠ some s) →
        (∀ i, (y.worker i).finishes ≠ some s) →
        (y.sess s).ppRunning = true ∧ (s ∈ y.ppQueue.items ∨ (∃ i, (y.worker i).serves = some s) ∨
          ∃ g, (y.app g).claims = some s)) := by
  have h := scheduled_reachable hr
  refine ⟨h.tok.nodup, fun s => ⟨fun i hi => ?_, fun i j hi hj => ?_, fun hd hq hk hf => ?_,
    fun hd hq hp hf => ?_⟩⟩
  · exact h.tok.not_queued (x := .worker i) hi (by simp)
  · exact Holder.worker.inj ((h.tok.claimed s).unique (.worker i) (.worker j) hi hj)
  · obtain ⟨hrun, x, hx⟩ := h.waiting hd hq (fun g hg => hk g (App.kicks_of_pushes hg)) hf
    refine ⟨hrun, ?_⟩
    cases x with
    | queue => exact .inl hx
    | worker i => exact .inr ⟨i, hx⟩
    | app g => exact absurd (App.kicks_of_claims hx) (hk g)
  · obtain ⟨hrun, x, hx⟩ := h.waiting hd hq hp hf
    refine ⟨hrun, ?_⟩
    cases x with
    | queue => exact .inl hx
    | worker i => exact .inr (.inl ⟨i, hx⟩)
    | app g => exact .inr (.inr ⟨g, hx⟩)

/-- A worker finds the queue empty and clears the flag; a packet arrives and
its producer claims the session before the worker has looked again. -/
def handoffRun : List (Ev (Fin 2) (Fin 2) (Fin 2)) :=
  .lock ix0 ix0 :: put ⟨[1], false⟩ ++ List.replicate 12 (work ix0) ++ put ⟨[2], false⟩ ++ List.replicate 2 (work ix0)

theorem scheduling_handoff : ∃ y : State (Fin 2) (Fin 2) (Fin 2), (system fun _ => none).Reachable y ∧
    (y.sess 0).postQueue.items = [⟨[2], false⟩] ∧
    (y.sess 0).ppRunning = true ∧ (0 ∈ y.ppQueue.items ∨ ∃ i, (y.worker i).serves = some 0) := by
  obtain ⟨y, hy, hd, hq, hk, hf⟩ : ∃ y : State (Fin 2) (Fin 2) (Fin 2),
      LTS.play next (fun _ _ => true) (initial fun _ => none) handoffRun = some y ∧
      (y.sess 0).die = false ∧ (y.sess 0).postQueue.items = [⟨[2], false⟩] ∧ (∀ g, (y.app g).kicks ≠ some 0) ∧
      ∀ i, (y.worker i).finishes ≠ some 0 :=
    ⟨_, rfl, by decide +kernel, by decide +kernel, by decide +kernel, by decide +kernel⟩
  have hr : (system fun _ => none).Reachable y :=
    ⟨_, handoffRun, rfl, LTS.play_run (fun _ _ _ _ hn => hn) hy⟩
  exact ⟨y, hr, hq, ((scheduling (fun _ => none) y hr).2 0).2.2.1 hd (by rw [hq]; simp) hk hf⟩

end KcpGo.L5
