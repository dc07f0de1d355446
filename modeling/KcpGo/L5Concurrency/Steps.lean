import KcpGo.L5Concurrency.PostProcess

/-!
# What each step of the post-processing can do

`Step` lists the kinds of steps with what is known in each; `step_of_next`
says that there are no others. Steps that move one goroutine and change no
shared state are `move` and `appMove`, changes to fields that the
post-processing does not look at are `admin`. The queues appear by the lists
they stand for.
-/
namespace KcpGo.L5

open KcpGo.L2

variable {σ ι γ : Type} [DecidableEq σ] [DecidableEq ι] [DecidableEq γ]
variable {y y' : State σ ι γ}

/-- A function that differs at one place only agrees with the old one under
`c` everywhere if it does so there. -/
theorem update_agrees {α β δ : Type} [DecidableEq α] {f : α → β} {a : α} {v : β} (c : β → δ) (h : c v = c (f a))
    (b : α) : c (Function.update f a v b) = c (f b) := by
  by_cases hb : b = a
  · rw [hb, Function.update_self, h]
  · rw [Function.update_of_ne hb]

/-- What holds at every place still does if it does at the changed one. -/
theorem update_keeps {α β : Type} [DecidableEq α] {f : α → β} {a : α} {v : β} (P : β → Prop) (h : P (f a) → P v)
    (b : α) (hb : P (f b)) : P (Function.update f a v b) := by
  by_cases hba : b = a
  · subst hba
    rw [Function.update_self]
    exact h hb
  · rw [Function.update_of_ne hba]
    exact hb

/-- The fields that the post-processing reads are the same. -/
structure Session.Same (x x' : Session ι γ) : Prop where
  postQueue : x'.postQueue = x.postQueue
  ppRunning : x'.ppRunning = x.ppRunning
  die : x'.die = x.die
  ppSendMu : x'.ppSendMu = x.ppSendMu
  ppClosing : x'.ppClosing = x.ppClosing
  fecEncoder : x'.fecEncoder = x.fecEncoder

/-- A goroutine that is not putting out a packet nor past `close(s.die)`. -/
def App.quiet : App σ → Bool
  | .idle => true
  | .closing _ => true
  | .locked _ _ => true
  | _ => false

/-- The session whose `mu` a goroutine holds. -/
def App.locks : App σ → Option σ
  | .locked s _ => some s
  | .output s _ _ => some s
  | .pushed s _ => some s
  | .claimed s _ => some s
  | _ => none

/-- What a step of `g` may do with the mutex `mu` of `s`: the session that
`g` has locked and the holder of `mu`, before and after. -/
inductive MuMove (g : γ) (s : σ) : Option σ → Option γ → Option σ → Option γ → Prop where
  | keep {l m} : MuMove g s l m l m
  | lock : MuMove g s none none (some s) (some g)
  | unlock {m} : MuMove g s (some s) m none none

/-- A producer's step that only moves it. -/
inductive AppMove (y : State σ ι γ) : App σ → App σ → Prop where
  | output {s c r} : (y.sess s).die = false → AppMove y (.locked s c) (.output s c r)
  | full {s c r} : AppMove y (.output s c r) (.locked s c)
  | running {s c} : (y.sess s).ppRunning = true → AppMove y (.pushed s c) (.locked s c)

/-- A worker's step that only moves it. -/
inductive Move (y : State σ ι γ) (w : Nat) : Phase σ → Phase σ → Prop where
  | tookClosed {s} : (y.sess s).die = true → Move y w (.took s) (.store s false)
  | tookOpen {s} : Move y w (.took s) (.loop s 0)
  | empty {s n} : (y.sess s).postQueue.items = [] → Move y w (.loop s n) (.store s true)
  | lastFlush {s n} : Move y w (.loop s n) (.flush s none)
  | budget {s n} : y.batch w = [] → Move y w (.loop s n) (.recheck s)
  | full {s n} : Move y w (.built s n) (.flush s (some n))
  | more {s n} : (y.sess s).postQueue.items ≠ [] → Move y w (.built s n) (.loop s (n + 1))
  | flushOpen {s k} : (y.sess s).die = false → Move y w (.flush s k) (.send s k)
  | fail {s k m msgs} : Move y w (.tx s k (m :: msgs)) (.tx s k [])
  | recheck {s} : Move y w (.recheck s) (.requeue s)
  | finish {s} : Move y w (.recheck s) (.store s true)
  | storedClosed {s u} : (y.sess s).die = true → Move y w (.stored s u) (.discard s)
  | storedOpen {s u} : (y.sess s).die = false → Move y w (.stored s u) (.relook s u)
  | discarded {s} : Move y w (.discard s) .wait
  | relook {s u} : Move y w (.relook s u) (.reclaim s u)
  | idle {s u} : (y.sess s).postQueue.items = [] → Move y w (.relook s u) .wait
  | running {s u} : (y.sess s).ppRunning = true → Move y w (.reclaim s u) .wait

inductive Step (y : State σ ι γ) : Ev σ ι γ → State σ ι γ → Prop where
  | stay {e} : Step y e y
  | admin {e g s x p} : (y.sess s).Same x → (y.app g).quiet = true → p.quiet = true →
      MuMove g s (y.app g).locks (y.sess s).mu p.locks x.mu →
      Step y e ((y.setSess s x).goApp g p)
  | appMove {e g p p'} : y.app g = p → AppMove y p p' → Step y e (y.goApp g p')
  | push {e g s c r pq} : y.app g = .output s c r → pq.items = (y.sess s).postQueue.items ++ [r] →
      Step y e ((y.setSess s { y.sess s with postQueue := pq }).goApp g (.pushed s c))
  | claim {e g s c} : y.app g = .pushed s c → (y.sess s).ppRunning = false →
      Step y e ((y.setSess s { y.sess s with ppRunning := true }).goApp g (.claimed s c))
  | enqueue {e g s c} : y.app g = .claimed s c → Step y e ((y.ppEnqueue s).goApp g (.locked s c))
  | die {e g s} : y.app g = .locked s true →
      Step y e ((y.setSess s { y.sess s with die := true, mu := none }).goApp g (.gate s))
  | gate {e g s} : y.app g = .gate s → (y.sess s).ppSendMu = none →
      Step y e ((y.setSess s { y.sess s with ppClosing := true }).goApp g (.drain s))
  | drain {g grow s r pq} : y.app g = .drain s → (y.sess s).postQueue.items = r :: pq.items →
      Step y (.app g grow) ((y.setSess s { y.sess s with postQueue := pq }).goApp g (.drain s))
  | drained {e g s} : y.app g = .drain s → (y.sess s).postQueue.items = [] →
      Step y e (((y.setSess s { y.sess s with dieOnce := .done }).record (.closed s)).goApp g .idle)
  | getNew {i c} : y.worker i = .start → c.pick = none →
      Step y (.worker i c) (({ y with made := y.made + 1 }.setBatch y.made []).goWorker i y.made .wait)
  | getOld {i c w} : y.worker i = .start → c.pick = some w → w ∈ y.pool →
      Step y (.worker i c) ({ y with pool := y.pool.erase w }.goWorker i w .wait)
  | dequeue {e i w s pq} : y.worker i = .run w .wait → y.ppQueue.items = s :: pq.items →
      Step y e ({ y with ppQueue := pq }.goWorker i w (.took s))
  | move {e i w p p'} : y.worker i = .run w p → Move y w p p' → Step y e (y.goWorker i w p')
  | pop {e i w s n skip r pq} : y.worker i = .run w (.loop s n) → (y.sess s).postQueue.items = r :: pq.items →
      Step y e ((((y.setSess s { y.sess s with
          postQueue := pq, fecEncoder := (fecStage (y.sess s).fecEncoder skip r).2 }).setBatch w
        (y.batch w ++ datagrams s (y.sess s).dup r (fecStage (y.sess s).fecEncoder skip r).1)).record
          (.pop s r)).goWorker i w (.built s n))
  | flushClosed {i c w s k} : y.worker i = .run w (.flush s k) → (y.sess s).die = true →
      Step y (.worker i c) (({ y.recycle w with pool := w :: y.pool }).goWorker i w (.requeue s))
  | sendClosing {e i w s k} : y.worker i = .run w (.send s k) → (y.sess s).ppClosing = true →
      Step y e ((y.recycle w).goWorker i w (.resume s k))
  | sendLock {e i w s k} : y.worker i = .run w (.send s k) → (y.sess s).ppSendMu = none →
      (y.sess s).ppClosing = false →
      Step y e ((y.setSess s { y.sess s with ppSendMu := some i }).goWorker i w (.tx s k (y.batch w)))
  | txDone {e i w s k} : y.worker i = .run w (.tx s k []) →
      Step y e (((y.recycle w).setSess s { y.sess s with ppSendMu := none }).goWorker i w (.resume s k))
  | txWrite {e i w s k m msgs} : y.worker i = .run w (.tx s k (m :: msgs)) →
      Step y e ((y.record (.tx s m)).goWorker i w (.tx s k msgs))
  | requeue {e i w s} : y.worker i = .run w (.requeue s) → Step y e ((y.ppEnqueue s).goWorker i w .wait)
  | store {e i w s u} : y.worker i = .run w (.store s u) →
      Step y e ((y.setSess s { y.sess s with ppRunning := false }).goWorker i w (.stored s u))
  | discard {i c w s r pq} : y.worker i = .run w (.discard s) → (y.sess s).postQueue.items = r :: pq.items →
      Step y (.worker i c) ((y.setSess s { y.sess s with postQueue := pq }).goWorker i w (.discard s))
  | reclaim {e i w s u} : y.worker i = .run w (.reclaim s u) → (y.sess s).ppRunning = false →
      Step y e ((y.setSess s { y.sess s with ppRunning := true }).goWorker i w (if u then .requeue s else .wait))

/-! ## There are no other steps -/

theorem items_of_pop_none {sq pq : SendQueue SendRequest} (h : sq.pop = (none, pq)) : sq.items = [] := by
  have := sq.pop_items.1
  rw [h] at this
  exact List.head?_eq_none_iff.mp this.symm

theorem items_of_pop_some {sq pq : SendQueue SendRequest} {r : SendRequest} (h : sq.pop = (some r, pq)) :
    sq.items = r :: pq.items := by
  obtain ⟨h1, h2⟩ := sq.pop_items
  rw [h] at h1 h2
  rw [h2]
  exact (List.cons_head?_tail h1.symm).symm

theorem items_of_push {sq pq : SendQueue SendRequest} {r : SendRequest} {grow : Nat}
    (h : sq.push grow r = (true, pq)) : pq.items = sq.items ++ [r] := by
  have := sq.push_items grow r
  split at this
  · rw [h] at this
    exact this.2
  · rw [h] at this
    cases this

theorem step_of_phase {i : ι} {w : Nat} {c : Choice} {p : Phase σ}
    (hw : y.worker i = .run w p) (h : y.phaseStep i w c p = some y') : Step y (.worker i c) y' := by
  cases p with
  | wait =>
    obtain ⟨⟨s, pq⟩, hd, rfl⟩ := Option.map_eq_some_iff.mp h
    exact .dequeue hw (PPQueue.dequeue_items hd)
  | took s =>
    cases h
    split
    · rename_i hd
      exact .move hw (.tookClosed hd)
    · exact .move hw .tookOpen
  | loop s n =>
    simp only [State.phaseStep] at h
    split at h
    · cases h
      unfold State.popBuild
      dsimp only
      split
      · rename_i hp
        exact .move hw (.empty (items_of_pop_none hp))
      · rename_i hp
        exact .pop hw (items_of_pop_some hp)
    · cases h
      split
      · exact .move hw .lastFlush
      · rename_i hb
        exact .move hw (.budget (List.length_eq_zero_iff.mp (Nat.eq_zero_of_not_pos hb)))
  | built s n =>
    simp only [State.phaseStep] at h
    split at h
    · cases h
      exact .move hw .full
    · rename_i hb
      cases h
      refine .move hw (.more fun he => hb (.inl ?_))
      rw [SendQueue.len_items, he]
      rfl
  | flush s k =>
    cases h
    unfold State.flushTx
    split
    · rename_i hd
      exact .flushClosed hw hd
    · rename_i hd
      exact .move hw (.flushOpen (Bool.eq_false_iff.mpr hd))
  | send s k =>
    simp only [State.phaseStep, State.sendTx] at h
    split at h
    · cases h
    · rename_i hm
      split at h
      · rename_i hc
        cases h
        exact .sendClosing hw hc
      · rename_i hc
        cases h
        exact .sendLock hw (Option.not_isSome_iff_eq_none.mp hm) (Bool.eq_false_iff.mpr hc)
  | tx s k msgs =>
    cases h
    cases msgs with
    | nil => exact .txDone hw
    | cons m msgs =>
      simp only [State.write]
      split
      · exact .move hw .fail
      · exact .txWrite hw
  | recheck s =>
    cases h
    split
    · exact .move hw .recheck
    · exact .move hw .finish
  | requeue s =>
    cases h
    exact .requeue hw
  | store s u =>
    cases h
    exact .store hw
  | stored s u =>
    cases h
    split
    · rename_i hd
      exact .move hw (.storedClosed hd)
    · rename_i hd
      exact .move hw (.storedOpen (Bool.eq_false_iff.mpr hd))
  | discard s =>
    simp only [State.phaseStep] at h
    split at h
    · cases h
      exact .move hw .discarded
    · rename_i hp
      cases h
      exact .discard hw (items_of_pop_some hp)
  | relook s u =>
    cases h
    split
    · exact .move hw .relook
    · rename_i hl
      refine .move hw (.idle ?_)
      rw [SendQueue.len_items] at hl
      exact List.length_eq_zero_iff.mp (Nat.eq_zero_of_not_pos hl)
  | reclaim s u =>
    simp only [State.phaseStep] at h
    split at h
    · rename_i hr
      cases h
      exact .move hw (.running hr)
    · rename_i hr
      cases h
      exact .reclaim hw (Bool.eq_false_iff.mpr hr)

theorem step_of_worker {i : ι} {c : Choice} (h : y.workerStep i c = some y') :
    Step y (.worker i c) y' := by
  unfold State.workerStep at h
  split at h
  · rename_i hw
    split at h
    · cases hp : c.pick with
      | none =>
        rw [hp] at h
        cases h
        exact .getNew hw hp
      | some w =>
        rw [hp] at h
        simp only [State.get] at h
        split at h
        · rename_i hmem
          cases h
          exact .getOld hw hp hmem
        · cases h
    · cases h
  · rename_i hw
    exact step_of_phase hw h

theorem step_of_app {g : γ} {grow : Nat} (h : y.appStep g grow = some y') :
    Step y (.app g grow) y' := by
  unfold State.appStep at h
  cases hg : y.app g with
  | idle =>
    rw [hg] at h
    cases h
  | locked s c =>
    rw [hg] at h
    cases h
  | output s c r =>
    rw [hg] at h
    dsimp only at h
    split at h
    · rename_i hp
      cases h
      exact .push hg (items_of_push hp)
    · cases h
      exact .appMove hg .full
  | pushed s c =>
    rw [hg] at h
    dsimp only at h
    split at h
    · rename_i hr
      cases h
      exact .appMove hg (.running hr)
    · rename_i hr
      cases h
      exact .claim hg (Bool.eq_false_iff.mpr hr)
  | claimed s c =>
    rw [hg] at h
    cases h
    exact .enqueue hg
  | closing s =>
    rw [hg] at h
    dsimp only at h
    split at h
    · cases h
    · rename_i hm
      cases h
      refine .admin ⟨rfl, rfl, rfl, rfl, rfl, rfl⟩ (by rw [hg]; rfl) rfl ?_
      rw [hg, Option.not_isSome_iff_eq_none.mp hm]
      exact .lock
  | gate s =>
    rw [hg] at h
    dsimp only at h
    split at h
    · cases h
    · rename_i hm
      cases h
      exact .gate hg (Option.not_isSome_iff_eq_none.mp hm)
  | drain s =>
    rw [hg] at h
    dsimp only at h
    split at h
    · rename_i hp
      cases h
      exact .drained hg (items_of_pop_none hp)
    · rename_i hp
      cases h
      exact .drain hg (items_of_pop_some hp)

theorem step_of_next {e : Ev σ ι γ} (h : next y e = some y') : Step y e y' := by
  cases e with
  | lock g s =>
    simp only [next] at h
    split at h
    · rename_i hg
      cases h
      refine .admin ⟨rfl, rfl, rfl, rfl, rfl, rfl⟩ (by rw [hg.1]; rfl) rfl ?_
      rw [hg.1, Option.isNone_iff_eq_none.mp hg.2]
      exact .lock
    · cases h
  | setDUP g n =>
    simp only [next] at h
    split at h
    · rename_i s hg
      cases h
      have hq : (y.app g).quiet = true := by rw [hg]; rfl
      have := Step.admin (e := .setDUP g n) (x := { y.sess s with dup := n }) ⟨rfl, rfl, rfl, rfl, rfl, rfl⟩ hq hq .keep
      simpa only [State.goApp, State.setSess, Function.update_eq_self] using this
    · cases h
  | output g r =>
    simp only [next] at h
    split at h
    · rename_i s c hg
      split at h
      · cases h
        split
        · exact .stay
        · rename_i hd
          exact .appMove hg (.output (Bool.eq_false_iff.mpr hd))
      · cases h
    · cases h
  | unlock g =>
    simp only [next] at h
    split at h
    · rename_i s hg
      cases h
      refine .admin ⟨rfl, rfl, rfl, rfl, rfl, rfl⟩ (by rw [hg]; rfl) rfl ?_
      rw [hg]
      exact .unlock
    · cases h
  | close g s =>
    simp only [next] at h
    split at h
    · rename_i hg
      split at h
      · cases h
        refine .admin ⟨rfl, rfl, rfl, rfl, rfl, rfl⟩ (by rw [hg]; rfl) rfl ?_
        rw [hg]
        exact .keep
      · cases h
      · cases h
        exact .stay
    · cases h
  | die g =>
    simp only [next] at h
    split at h
    · rename_i s hg
      cases h
      exact .die hg
    · cases h
  | app g grow => exact step_of_app h
  | worker i c => exact step_of_worker h

/-! ## `die` stays closed -/

theorem Step.die_mono {e : Ev σ ι γ} (h : Step y e y') (t : σ)
    (ht : (y.sess t).die = true) : (y'.sess t).die = true := by
  cases h with
  | admin hx => exact update_keeps (fun x : Session ι γ => x.die = true) (fun hd => hx.die.trans hd) t ht
  | die => exact update_keeps (fun x : Session ι γ => x.die = true) (fun _ => rfl) t ht
  | push | claim | gate | drain | drained | pop | sendLock | txDone | store | discard | reclaim =>
    refine update_keeps (fun x : Session ι γ => x.die = true) ?_ t ht
    exact id
  | _ => exact ht

end KcpGo.L5
