import KcpGo.L5Concurrency.Ownership
import KcpGo.L5Concurrency.Scheduling

/-!
# Datagrams stay with their session

A worker uses one batch for all sessions, so what it leaves there when it is
done with one session goes out with the packets of the next. `postProcess`
empties the batch whenever it finds the queue empty, and returns without
looking at the batch when a `pop` finds nothing: this is sound only if nobody
else takes requests between the two. `discardPostProcess` does, from `Close`
and from a worker that has already given up the session.

* `stolen_batch`: a run in which the drain of `Close` does so. The datagram
  that the worker had built goes out through another session after `Close`
  has returned.
* `datagram_isolation`: as long as `discardPostProcess` takes no request of a
  session that a worker is processing, and every worker starts with a new
  `ppWorker`, each datagram goes out through the session that built it, from
  requests of its own queue, and before its `Close` returns.
-/

namespace KcpGo.L5

open KcpGo.L2

variable {σ ι γ : Type} [DecidableEq σ] [DecidableEq ι] [DecidableEq γ]
variable {s : σ} {y y' : State σ ι γ}

/-! ## What is observed -/

/-- Every datagram was built by the session that sent it, from requests taken
from its queue, and its session's `Close` had not returned. -/
def Isolated : List (Act σ) → Prop
  | [] => True
  | .tx t m :: past =>
    (m.src = t ∧ (∀ r ∈ m.content.requests, .pop t r ∈ past) ∧ .closed m.src ∉ past) ∧ Isolated past
  | .pop _ _ :: past => Isolated past
  | .closed _ :: past => Isolated past

/-- The session that a worker is in `postProcess` for. -/
def Phase.processes : Phase σ → Option σ
  | .loop s _ => some s
  | .built s _ => some s
  | .flush s _ => some s
  | .send s _ => some s
  | .tx s _ _ => some s
  | .recheck s => some s
  | _ => none

def Worker.processes : Worker σ → Option σ
  | .start => none
  | .run _ p => p.processes

/-- The session from whose queue the step, one of `discardPostProcess`, takes
a request. -/
def discards (y : State σ ι γ) : Ev σ ι γ → Option σ
  | .app g _ =>
    match y.app g with
    | .drain s => if (y.sess s).postQueue.items = [] then none else some s
    | _ => none
  | .worker i _ =>
    match y.worker i with
    | .run _ (.discard s) => if (y.sess s).postQueue.items = [] then none else some s
    | _ => none
  | _ => none

/-- The step takes no `ppWorker` from the pool, and `discardPostProcess` takes
no request of a session that a worker is processing. -/
def Undisturbed (y : State σ ι γ) (e : Ev σ ι γ) : Prop :=
  takesNew y e = true ∧ ∀ s, discards y e = some s → ∀ i, (y.worker i).processes ≠ some s

def undisturbed (fec : σ → Option (Nat × Nat)) : LTS (State σ ι γ) (Ev σ ι γ) :=
  (system fec).restrict fun y e _ => Undisturbed y e

/-! ## Origins -/

/-- The messages were built by `s` from requests of its queue. -/
def Own (log : List (Act σ)) (s : σ) (b : List (Message σ)) : Prop :=
  ∀ m ∈ b, m.src = s ∧ ∀ r ∈ m.content.requests, .pop s r ∈ log

omit [DecidableEq σ] in
theorem Own.mono {log log' : List (Act σ)} {b : List (Message σ)} (h : Own log s b) (hl : log ⊆ log') :
    Own log' s b := fun m hm => ⟨(h m hm).1, fun r hr => hl ((h m hm).2 r hr)⟩

omit [DecidableEq σ] in
theorem own_nil (log : List (Act σ)) (s : σ) : Own log s [] := fun m hm => by cases hm

/-- What an encoder puts out or keeps comes from what it had and the packet. -/
theorem encode_origin (enc : FecEncoder) (skip : Bool) (r q : SendRequest)
    (hq : (∃ g ∈ (enc.encode skip r).1, q ∈ g) ∨ q ∈ (enc.encode skip r).2.shards) : q = r ∨ q ∈ enc.shards := by
  have hall : q ∈ enc.shards ++ [r] → q = r ∨ q ∈ enc.shards := by
    intro hm
    rcases List.mem_append.mp hm with hm | hm
    · exact .inr hm
    · exact .inl (List.mem_singleton.mp hm)
  unfold FecEncoder.encode at hq
  dsimp only at hq
  split at hq
  · rcases hq with ⟨g, hg, -⟩ | hq
    · cases hg
    · exact hall hq
  · rcases hq with ⟨g, hg, hqg⟩ | hq
    · split at hg
      · cases hg
      · rw [List.eq_of_mem_replicate hg] at hqg
        exact hall hqg
    · cases hq

/-- Every request in the encoder was taken from the queue of `s`. -/
def EncOk (log : List (Act σ)) (s : σ) (enc : Option FecEncoder) : Prop :=
  ∀ e, enc = some e → ∀ q ∈ e.shards, .pop s q ∈ log

omit [DecidableEq σ] in
theorem fecStage_own {log : List (Act σ)} {enc : Option FecEncoder} (h : EncOk log s enc) (skip : Bool)
    (r : SendRequest) :
    (∀ g ∈ (fecStage enc skip r).1, ∀ q ∈ g, .pop s q ∈ .pop s r :: log) ∧
      EncOk (.pop s r :: log) s (fecStage enc skip r).2 := by
  have keep : EncOk (.pop s r :: log) s enc := fun e he q hq => List.mem_cons_of_mem _ (h e he q hq)
  have step : ∀ e q, enc = some e → q = r ∨ q ∈ e.shards → Act.pop s q ∈ .pop s r :: log := by
    intro e q he hq
    rcases hq with rfl | hq
    · exact List.mem_cons_self
    · exact keep e he q hq
  cases enc with
  | none => exact ⟨fun g hg => absurd hg List.not_mem_nil, keep⟩
  | some e =>
    unfold fecStage
    dsimp only
    split
    · exact ⟨fun g hg => absurd hg List.not_mem_nil, keep⟩
    · refine ⟨fun g hg q hq => ?_, fun e' he q hq => ?_⟩
      · exact step e q rfl (encode_origin e skip r q (.inl ⟨g, hg, hq⟩))
      · cases he
        exact step e q rfl (encode_origin e skip r q (.inr hq))

omit [DecidableEq σ] in
theorem datagrams_own {log : List (Act σ)} {dup : Int} {r : SendRequest} {ecc : List (List SendRequest)}
    (hr : .pop s r ∈ log) (he : ∀ g ∈ ecc, ∀ q ∈ g, .pop s q ∈ log) : Own log s (datagrams s dup r ecc) := by
  intro m hm
  simp only [datagrams, List.mem_cons, List.mem_append, List.mem_replicate, List.mem_map] at hm
  rcases hm with rfl | ⟨-, rfl⟩ | ⟨g, hg, rfl⟩
  · exact ⟨rfl, fun q hq => by rw [List.mem_singleton.mp hq]; exact hr⟩
  · exact ⟨rfl, fun q hq => by rw [List.mem_singleton.mp hq]; exact hr⟩
  · exact ⟨rfl, he g hg⟩

/-! ## The batch of one worker -/

/-- What is known of the batch `w` of worker `i` in each phase. Between two
rounds a batch that is not empty means that the queue is not, which is what
the worker saw last. -/
def BatchOk (y : State σ ι γ) (i : ι) (w : Nat) : Phase σ → Prop
  | .loop s _ => Own y.log s (y.batch w) ∧ (y.batch w ≠ [] → (y.sess s).postQueue.items ≠ [])
  | .built s _ => Own y.log s (y.batch w)
  | .flush s _ => Own y.log s (y.batch w)
  | .send s _ => Own y.log s (y.batch w)
  | .tx s _ msgs => Own y.log s msgs ∧ (y.sess s).ppSendMu = some i ∧ (y.sess s).ppClosing = false
  | _ => y.batch w = []

def Clean (y : State σ ι γ) : Prop := ∀ i w p, y.worker i = .run w p → BatchOk y i w p

section
omit [DecidableEq σ] [DecidableEq ι] [DecidableEq γ]

/-- A worker that does not move keeps what it knows if nobody touches its
batch, empties the queue it works on or changes the gate it holds. -/
theorem BatchOk.frame {i : ι} {w : Nat} {p : Phase σ} (h : BatchOk y i w p)
    (hb : y'.batch w = y.batch w) (hl : y.log ⊆ y'.log)
    (hq : ∀ s, p.processes = some s → (y.sess s).postQueue.items ≠ [] → (y'.sess s).postQueue.items ≠ [])
    (hm : ∀ s, (y.sess s).ppSendMu = some i →
      (y'.sess s).ppSendMu = some i ∧ (y'.sess s).ppClosing = (y.sess s).ppClosing) : BatchOk y' i w p := by
  cases p with
  | loop s n =>
    unfold BatchOk
    rw [hb]
    exact ⟨h.1.mono hl, fun hne => hq s rfl (h.2 hne)⟩
  | built s n | flush s k | send s k =>
    unfold BatchOk
    rw [hb]
    exact Own.mono h hl
  | tx s k msgs =>
    obtain ⟨ho, hmu, hc⟩ := h
    obtain ⟨hmu', hc'⟩ := hm s hmu
    exact ⟨ho.mono hl, hmu', hc'.trans hc⟩
  | _ => exact hb.trans h

/-- A worker that resumes after its batch was emptied. -/
theorem batchOk_resume {i : ι} {w : Nat} (s : σ) (k : Option Nat) (hb : y.batch w = []) :
    BatchOk y i w (.resume s k) := by
  cases k with
  | none => exact hb
  | some n =>
    unfold Phase.resume BatchOk
    rw [hb]
    exact ⟨own_nil _ _, fun hne => absurd rfl hne⟩

/-- A move that changes nothing else. -/
theorem Move.batchOk {i : ι} {w : Nat} {p p' : Phase σ} (hm : Move y w p p') (h : BatchOk y i w p) :
    BatchOk y i w p' := by
  cases hm with
  | tookClosed _ => exact h
  | tookOpen =>
    have hb : y.batch w = [] := h
    unfold BatchOk
    rw [hb]
    exact ⟨own_nil _ _, fun hne => absurd rfl hne⟩
  | empty hq =>
    by_contra hne
    exact h.2 hne hq
  | lastFlush => exact h.1
  | budget hb => exact hb
  | full => exact h
  | more hq => exact ⟨h, fun _ => hq⟩
  | flushOpen _ => exact h
  | fail => exact ⟨own_nil _ _, h.2⟩
  | recheck | finish | storedClosed | storedOpen | discarded | relook | idle | running => exact h

end

omit [DecidableEq ι] [DecidableEq γ] [DecidableEq σ] in
/-- A step of the other goroutines and of workers that are not in `moved`. -/
theorem Clean.step (h : Clean y) (moved : ι → Prop)
    (hw : ∀ j, ¬ moved j → y'.worker j = y.worker j)
    (hb : ∀ j v p, ¬ moved j → y.worker j = .run v p → y'.batch v = y.batch v) (hl : y.log ⊆ y'.log)
    (hq : ∀ s j, ¬ moved j → (y.worker j).processes = some s → (y.sess s).postQueue.items ≠ [] →
      (y'.sess s).postQueue.items ≠ [])
    (hm : ∀ s j, ¬ moved j → (y.sess s).ppSendMu = some j →
      (y'.sess s).ppSendMu = some j ∧ (y'.sess s).ppClosing = (y.sess s).ppClosing)
    (hself : ∀ j w p, moved j → y'.worker j = .run w p → BatchOk y' j w p) : Clean y' := by
  intro j v p hj
  by_cases hmj : moved j
  · exact hself j v p hmj hj
  · rw [hw j hmj] at hj
    refine (h j v p hj).frame (hb j v p hmj hj) hl (fun s hs => hq s j hmj ?_) fun s => hm s j hmj
    rw [hj]
    exact hs

omit [DecidableEq ι] [DecidableEq γ] [DecidableEq σ] in
/-- A step of a goroutine that is no worker. -/
theorem Clean.app (h : Clean y) (hw : y'.worker = y.worker) (hb : y'.batch = y.batch)
    (hl : y.log ⊆ y'.log)
    (hq : ∀ s j, (y.worker j).processes = some s → (y.sess s).postQueue.items ≠ [] →
      (y'.sess s).postQueue.items ≠ [])
    (hm : ∀ s j, (y.sess s).ppSendMu = some j →
      (y'.sess s).ppSendMu = some j ∧ (y'.sess s).ppClosing = (y.sess s).ppClosing) : Clean y' :=
  h.step (fun _ => False) (fun j _ => by rw [hw]) (fun _ _ _ _ _ => by rw [hb]) hl (fun s j _ => hq s j)
    (fun s j _ => hm s j) fun _ _ _ hf => hf.elim

omit [DecidableEq γ] [DecidableEq σ] in
/-- A step of a running worker; its batch is its own. -/
theorem Clean.worker (h : Clean y) (ho : Owned y) {i : ι} {w : Nat} {p p' : Phase σ}
    (hi : y.worker i = .run w p) (hw : y'.worker = Function.update y.worker i (.run w p'))
    (hb : ∀ v, v ≠ w → y'.batch v = y.batch v) (hl : y.log ⊆ y'.log)
    (hq : ∀ s j, j ≠ i → (y.worker j).processes = some s → (y.sess s).postQueue.items ≠ [] →
      (y'.sess s).postQueue.items ≠ [])
    (hm : ∀ s j, j ≠ i → (y.sess s).ppSendMu = some j →
      (y'.sess s).ppSendMu = some j ∧ (y'.sess s).ppClosing = (y.sess s).ppClosing)
    (hp : BatchOk y' i w p') : Clean y' := by
  refine h.step (· = i) (fun j hj => ?_) (fun j v q hj hr => ?_) hl hq hm fun j v q hj hr => ?_
  · rw [hw, Function.update_of_ne hj]
  · refine hb v fun hv => hj (ho.unique j i w ?_ ?_)
    · rw [hr, hv]
      rfl
    · rw [hi]
      rfl
  · subst hj
    rw [hw, Function.update_self] at hr
    cases hr
    exact hp

section
omit [DecidableEq ι] [DecidableEq γ]

/-- A change of one session that leaves the sending gate alone. -/
theorem gate_update {x : Session ι γ} (hm : x.ppSendMu = (y.sess s).ppSendMu)
    (hc : x.ppClosing = (y.sess s).ppClosing) (t : σ) (j : ι) (hj : (y.sess t).ppSendMu = some j) :
    (Function.update y.sess s x t).ppSendMu = some j ∧
      (Function.update y.sess s x t).ppClosing = (y.sess t).ppClosing := by
  rw [update_agrees Session.ppSendMu hm, update_agrees Session.ppClosing hc]
  exact ⟨hj, rfl⟩

/-- A change of a session whose sending gate `j` does not hold. -/
theorem gate_other {x : Session ι γ} {j : ι} (hs : (y.sess s).ppSendMu ≠ some j) (t : σ)
    (hj : (y.sess t).ppSendMu = some j) :
    (Function.update y.sess s x t).ppSendMu = some j ∧
      (Function.update y.sess s x t).ppClosing = (y.sess t).ppClosing := by
  have hts : t ≠ s := fun he => hs (he ▸ hj)
  rw [Function.update_of_ne hts]
  exact ⟨hj, rfl⟩

/-- A change of one session that does not empty its queue. -/
theorem queue_update {x : Session ι γ}
    (hx : (y.sess s).postQueue.items ≠ [] → x.postQueue.items ≠ []) (t : σ)
    (ht : (y.sess t).postQueue.items ≠ []) : (Function.update y.sess s x t).postQueue.items ≠ [] :=
  update_keeps (fun x : Session ι γ => x.postQueue.items ≠ []) hx t ht

/-- A change of one session whose queue no other worker works on. -/
theorem queue_private {x : Session ι γ} {j : ι} (hj : (y.worker j).processes ≠ some s)
    (t : σ) (ht : (y.worker j).processes = some t) (hq : (y.sess t).postQueue.items ≠ []) :
    (Function.update y.sess s x t).postQueue.items ≠ [] := by
  have hts : t ≠ s := fun he => hj (he ▸ ht)
  rw [Function.update_of_ne hts]
  exact hq

end

omit [DecidableEq σ] in
theorem Phase.serves_of_processes {p : Phase σ} (h : p.processes = some s) : p.serves = some s := by
  cases p <;> first | exact h | cases h

omit [DecidableEq ι] [DecidableEq γ] [DecidableEq σ] in
/-- Only one worker is in `postProcess` for a session. -/
theorem Tok.process_alone (h : Tok y) {i j : ι} {w : Nat} {p : Phase σ}
    (hi : y.worker i = .run w p) (hp : p.processes = some s) (hne : j ≠ i) : (y.worker j).processes ≠ some s := by
  intro hj
  have h1 : Holds y s (.worker i) := by
    simp only [Holds, hi, Worker.serves]
    exact Phase.serves_of_processes hp
  have h2 : Holds y s (.worker j) := by
    cases hv : y.worker j with
    | start =>
      rw [hv] at hj
      cases hj
    | run v q =>
      rw [hv] at hj
      simp only [Holds, hv, Worker.serves]
      exact Phase.serves_of_processes hj
  exact hne (Holder.worker.inj ((h.claimed s).unique _ _ h2 h1))

omit [DecidableEq σ] [DecidableEq ι] [DecidableEq γ] in
theorem discards_drain {g : γ} {grow : Nat} {r : SendRequest} {l : List SendRequest}
    (hg : y.app g = .drain s) (hq : (y.sess s).postQueue.items = r :: l) :
    discards y (.app g grow) = some s := by
  simp [discards, hg, hq]

omit [DecidableEq σ] [DecidableEq ι] [DecidableEq γ] in
theorem discards_worker {i : ι} {w : Nat} {c : Choice} {r : SendRequest}
    {l : List SendRequest} (hw : y.worker i = .run w (.discard s)) (hq : (y.sess s).postQueue.items = r :: l) :
    discards y (.worker i c) = some s := by
  simp [discards, hw, hq]

/-! ## The log -/

structure Logged (y : State σ ι γ) : Prop where
  enc : ∀ s, EncOk y.log s (y.sess s).fecEncoder
  gate : ∀ g s, y.app g = .drain s → (y.sess s).ppClosing = true
  closed : ∀ s, .closed s ∈ y.log → (y.sess s).ppClosing = true
  log : Isolated y.log

omit [DecidableEq σ] [DecidableEq ι] [DecidableEq γ] in
/-- A step that writes nothing to the log and leaves the encoders alone. -/
theorem Logged.frame (h : Logged y) (hl : y'.log = y.log)
    (hf : ∀ s, (y'.sess s).fecEncoder = (y.sess s).fecEncoder)
    (hc : ∀ s, (y.sess s).ppClosing = true → (y'.sess s).ppClosing = true)
    (ha : ∀ g s, y'.app g = .drain s → y.app g = .drain s ∨ (y'.sess s).ppClosing = true) : Logged y' := by
  refine ⟨fun s => ?_, fun g s hg => ?_, fun s hs => ?_, ?_⟩
  · rw [hl, hf]
    exact h.enc s
  · exact (ha g s hg).elim (fun hg => hc s (h.gate g s hg)) id
  · rw [hl] at hs
    exact hc s (h.closed s hs)
  · rw [hl]
    exact h.log

omit [DecidableEq σ] [DecidableEq ι] in
theorem drain_update {g g' : γ} {p : App σ} (hp : p ≠ .drain s)
    (h : Function.update y.app g p g' = .drain s) : y.app g' = .drain s := by
  by_cases hg : g' = g
  · rw [hg, Function.update_self] at h
    exact absurd h hp
  · rw [Function.update_of_ne hg] at h
    exact h

omit [DecidableEq σ] in
theorem App.ne_drain_of_quiet {p : App σ} (h : p.quiet = true) (s : σ) : p ≠ .drain s := by
  rintro rfl
  cases h

omit [DecidableEq σ] [DecidableEq ι] [DecidableEq γ] in
theorem AppMove.ne_drain {p p' : App σ} (h : AppMove y p p') (s : σ) : p' ≠ .drain s := by
  rintro rfl
  cases h

omit [DecidableEq ι] [DecidableEq γ] in
/-- A step that changes one session, outside its encoder and its gate. -/
theorem Logged.sess (h : Logged y) {x : Session ι γ} (hl : y'.log = y.log)
    (hs : y'.sess = Function.update y.sess s x) (hf : x.fecEncoder = (y.sess s).fecEncoder)
    (hc : x.ppClosing = (y.sess s).ppClosing) (ha : ∀ g s, y'.app g = .drain s → y.app g = .drain s) :
    Logged y' := by
  refine h.frame hl (fun t => ?_) (fun t ht => ?_) fun g t hg => .inl (ha g t hg)
  · rw [hs]
    exact update_agrees Session.fecEncoder hf t
  · rw [hs, update_agrees Session.ppClosing hc]
    exact ht

omit [DecidableEq ι] [DecidableEq γ] in
/-- A request is taken from the queue of `s` and encoded. -/
theorem Logged.pop (h : Logged y) {r : SendRequest} {x : Session ι γ} {skip : Bool}
    (hl : y'.log = .pop s r :: y.log) (hs : y'.sess = Function.update y.sess s x)
    (hf : x.fecEncoder = (fecStage (y.sess s).fecEncoder skip r).2) (hc : x.ppClosing = (y.sess s).ppClosing)
    (ha : y'.app = y.app) : Logged y' := by
  have hcl : ∀ t, (y'.sess t).ppClosing = (y.sess t).ppClosing := fun t => by
    rw [hs]
    exact update_agrees Session.ppClosing hc t
  refine ⟨fun t => ?_, fun g t hg => ?_, fun t ht => ?_, ?_⟩
  · rw [hl, hs]
    by_cases hts : t = s
    · rw [hts, Function.update_self, hf]
      exact (fecStage_own (h.enc s) skip r).2
    · rw [Function.update_of_ne hts]
      exact fun e he q hq => List.mem_cons_of_mem _ (h.enc t e he q hq)
  · rw [ha] at hg
    exact (hcl t).trans (h.gate g t hg)
  · rw [hl] at ht
    refine (hcl t).trans (h.closed t ?_)
    rcases List.mem_cons.mp ht with ht | ht
    · cases ht
    · exact ht
  · rw [hl]
    exact h.log

omit [DecidableEq σ] [DecidableEq ι] [DecidableEq γ] in
/-- The `tx` of `s` writes a message of its own while the gate is open. -/
theorem Logged.tx (h : Logged y) {m : Message σ} (hl : y'.log = .tx s m :: y.log)
    (hs : y'.sess = y.sess) (ha : y'.app = y.app) (hsrc : m.src = s)
    (hreq : ∀ r ∈ m.content.requests, .pop s r ∈ y.log) (hc : (y.sess s).ppClosing = false) : Logged y' := by
  refine ⟨fun t => ?_, fun g t hg => ?_, fun t ht => ?_, ?_⟩
  · rw [hl, hs]
    exact fun e he q hq => List.mem_cons_of_mem _ (h.enc t e he q hq)
  · rw [hs]
    exact h.gate g t (ha ▸ hg)
  · rw [hl] at ht
    rw [hs]
    rcases List.mem_cons.mp ht with ht | ht
    · cases ht
    · exact h.closed t ht
  · rw [hl]
    refine ⟨⟨hsrc, hreq, fun hcl => ?_⟩, h.log⟩
    rw [hsrc] at hcl
    rw [h.closed s hcl] at hc
    cases hc

omit [DecidableEq ι] [DecidableEq γ] in
/-- `s.Close` returns; its gate is shut. -/
theorem Logged.close (h : Logged y) {x : Session ι γ} (hl : y'.log = .closed s :: y.log)
    (hs : y'.sess = Function.update y.sess s x) (hf : x.fecEncoder = (y.sess s).fecEncoder)
    (hc : x.ppClosing = (y.sess s).ppClosing) (hgate : (y.sess s).ppClosing = true)
    (ha : ∀ g s, y'.app g = .drain s → y.app g = .drain s) : Logged y' := by
  have hcl : ∀ t, (y'.sess t).ppClosing = (y.sess t).ppClosing := fun t => by
    rw [hs]
    exact update_agrees Session.ppClosing hc t
  refine ⟨fun t => ?_, fun g t hg => (hcl t).trans (h.gate g t (ha g t hg)), fun t ht => ?_, ?_⟩
  · rw [hl, hs, update_agrees Session.fecEncoder hf]
    exact fun e he q hq => List.mem_cons_of_mem _ (h.enc t e he q hq)
  · rw [hl] at ht
    rw [hcl]
    rcases List.mem_cons.mp ht with ht | ht
    · cases ht
      exact hgate
    · exact h.closed t ht
  · rw [hl]
    exact h.log

theorem logged_step {e : Ev σ ι γ} (h : Logged y) (hc : Clean y) (hs : Step y e y') :
    Logged y' := by
  cases hs with
  | stay => exact h
  | admin hx _ hp =>
    exact h.sess rfl rfl hx.fecEncoder hx.ppClosing fun _ t => drain_update (App.ne_drain_of_quiet hp t)
  | appMove _ hm =>
    exact h.frame rfl (fun _ => rfl) (fun _ => id) fun _ t hg => .inl (drain_update (hm.ne_drain t) hg)
  | push | claim | die => exact h.sess rfl rfl rfl rfl fun _ t => drain_update (by simp)
  | enqueue => exact h.frame rfl (fun _ => rfl) (fun _ => id) fun _ t hg => .inl (drain_update (by simp) hg)
  | gate hg hm =>
    rename_i g s
    refine h.frame rfl (update_agrees Session.fecEncoder rfl) (fun t ht => ?_) fun g' t hg' => ?_
    · exact update_keeps (fun x : Session ι γ => x.ppClosing = true) (fun _ => rfl) t ht
    · by_cases hts : t = s
      · refine .inr ?_
        simp only [State.goApp, State.setSess, hts, Function.update_self]
      · exact .inl (drain_update (fun hd => hts (App.drain.inj hd).symm) hg')
  | drain hg hq =>
    refine h.sess rfl rfl rfl rfl fun g' t hg' => ?_
    replace hg' : Function.update y.app _ _ g' = .drain t := hg'
    rwa [← hg, Function.update_eq_self] at hg'
  | drained hg => exact h.close rfl rfl rfl rfl (h.gate _ _ hg) fun _ t => drain_update (by simp)
  | getNew | getOld | dequeue | move | flushClosed | sendClosing | requeue =>
    exact h.frame rfl (fun _ => rfl) (fun _ => id) fun _ _ => .inl
  | pop => exact h.pop rfl rfl rfl rfl rfl
  | sendLock | txDone | store | discard | reclaim => exact h.sess rfl rfl rfl rfl fun _ _ => id
  | txWrite hw =>
    obtain ⟨ho, -, hcl⟩ := hc _ _ _ hw
    obtain ⟨hsrc, hreq⟩ := ho _ List.mem_cons_self
    exact h.tx rfl rfl rfl hsrc hreq hcl

theorem clean_step {e : Ev σ ι γ} (h : Clean y) (hl : Logged y) (ht : Tok y) (ho : Owned y)
    (hu : Undisturbed y e) (hs : Step y e y') : Clean y' := by
  cases hs with
  | stay => exact h
  | admin hx =>
    refine h.app rfl rfl (fun _ => id) (fun t _ _ => queue_update ?_ t) (gate_update hx.ppSendMu hx.ppClosing)
    rw [hx.postQueue]
    exact id
  | appMove | enqueue => exact h.app rfl rfl (fun _ => id) (fun _ _ _ => id) fun _ _ hj => ⟨hj, rfl⟩
  | push _ hq =>
    refine h.app rfl rfl (fun _ => id) (fun t _ _ => queue_update (fun _ => ?_) t) (gate_update (by rfl) (by rfl))
    simp [hq]
  | claim | die =>
    exact h.app rfl rfl (fun _ => id) (fun t _ _ => queue_update (by exact id) t) (gate_update (by rfl) (by rfl))
  | gate hg hm =>
    -- nobody writes for this session: a writer holds `ppSendMu`
    refine h.app rfl rfl (fun _ => id) (fun t _ _ => queue_update (by exact id) t) fun t j => gate_other ?_ t
    simp [hm]
  | drain hg hq =>
    refine h.app rfl rfl (fun _ => id) (fun t j => queue_private ?_ t) (gate_update (by rfl) (by rfl))
    exact hu.2 _ (discards_drain hg hq) j
  | drained =>
    exact h.app rfl rfl (fun _ => List.mem_cons_of_mem _) (fun t _ _ => queue_update (by exact id) t)
      (gate_update (by rfl) (by rfl))
  | getNew hw hp =>
    rename_i i c
    refine h.step (· = i) (fun j hj => Function.update_of_ne hj _ _) (fun j v p _ hr => ?_) (fun _ => id)
      (fun _ _ _ _ => id) (fun _ _ _ hj => ⟨hj, rfl⟩) fun j v p hj hr => ?_
    · have hlt := ho.made j v (by rw [hr]; rfl)
      exact Function.update_of_ne (Nat.ne_of_lt hlt) _ _
    · subst hj
      simp only [State.goWorker, Function.update_self] at hr
      cases hr
      exact Function.update_self _ _ _
  | getOld hw hp _ =>
    have hn := hu.1
    simp [takesNew, hw, hp] at hn
  | dequeue hw =>
    exact h.worker ho hw rfl (fun _ _ => rfl) (fun _ => id) (fun _ _ _ _ => id) (fun _ _ _ hj => ⟨hj, rfl⟩) (h _ _ _ hw)
  | requeue hw =>
    exact h.worker ho hw rfl (fun _ _ => rfl) (fun _ => id) (fun _ _ _ _ => id) (fun _ _ _ hj => ⟨hj, rfl⟩) (h _ _ _ hw)
  | move hw hm =>
    exact h.worker ho hw rfl (fun _ _ => rfl) (fun _ => id) (fun _ _ _ _ => id) (fun _ _ _ hj => ⟨hj, rfl⟩)
      (hm.batchOk (h _ _ _ hw))
  | pop hw hq =>
    rename_i i w s n skip r pq
    refine h.worker ho hw rfl (fun v hv => Function.update_of_ne hv _ _) (fun _ => List.mem_cons_of_mem _)
      (fun t j hj => queue_private (ht.process_alone hw rfl hj) t) (fun t j _ => gate_update (by rfl) (by rfl) t j) ?_
    obtain ⟨hown, -⟩ := h _ _ _ hw
    show Own _ s (Function.update y.batch w _ w)
    rw [Function.update_self]
    intro m hm
    rcases List.mem_append.mp hm with hm | hm
    · exact hown.mono (fun _ => List.mem_cons_of_mem _) m hm
    · exact datagrams_own List.mem_cons_self (fecStage_own (hl.enc s) skip r).1 m hm
  | flushClosed hw =>
    exact h.worker ho hw rfl (fun v hv => Function.update_of_ne hv _ _) (fun _ => id) (fun _ _ _ _ => id)
      (fun _ _ _ hj => ⟨hj, rfl⟩) (Function.update_self _ _ _)
  | sendClosing hw =>
    exact h.worker ho hw rfl (fun v hv => Function.update_of_ne hv _ _) (fun _ => id) (fun _ _ _ _ => id)
      (fun _ _ _ hj => ⟨hj, rfl⟩) (batchOk_resume _ _ (Function.update_self _ _ _))
  | sendLock hw hm hcl =>
    rename_i i w s k
    refine h.worker ho hw rfl (fun _ _ => rfl) (fun _ => id) (fun t _ _ _ => queue_update (by exact id) t)
      (fun t j _ => gate_other ?_ t) ⟨h _ _ _ hw, ?_⟩
    · simp [hm]
    · simp [State.goWorker, State.setSess, hcl]
  | txDone hw =>
    rename_i i w s k
    obtain ⟨-, hmu, -⟩ := h _ _ _ hw
    refine h.worker ho hw rfl (fun v hv => Function.update_of_ne hv _ _) (fun _ => id)
      (fun t _ _ _ => queue_update (by exact id) t) (fun t j hji => gate_other ?_ t)
      (batchOk_resume _ _ (Function.update_self _ _ _))
    rw [hmu]
    exact fun he => hji (Option.some.inj he).symm
  | txWrite hw =>
    obtain ⟨hown, hg⟩ := h _ _ _ hw
    refine h.worker ho hw rfl (fun _ _ => rfl) (fun _ => List.mem_cons_of_mem _) (fun _ _ _ _ => id)
      (fun _ _ _ hj => ⟨hj, rfl⟩) ⟨fun m hm => ?_, hg⟩
    exact hown.mono (fun _ => List.mem_cons_of_mem _) m (List.mem_cons_of_mem _ hm)
  | store hw =>
    exact h.worker ho hw rfl (fun _ _ => rfl) (fun _ => id) (fun t _ _ _ => queue_update (by exact id) t)
      (fun t j _ => gate_update (by rfl) (by rfl) t j) (h _ _ _ hw)
  | discard hw hq =>
    refine h.worker ho hw rfl (fun _ _ => rfl) (fun _ => id) (fun t j _ => queue_private ?_ t)
      (fun t j _ => gate_update (by rfl) (by rfl) t j) (h _ _ _ hw)
    exact hu.2 _ (discards_worker hw hq) j
  | reclaim hw hr =>
    rename_i i w s u
    refine h.worker ho hw rfl (fun _ _ => rfl) (fun _ => id) (fun t _ _ _ => queue_update (by exact id) t)
      (fun t j _ => gate_update (by rfl) (by rfl) t j) ?_
    have hb : y.batch w = [] := h _ _ _ hw
    cases u <;> exact hb

/-! ## Every undisturbed run -/

structure Serving (y : State σ ι γ) : Prop where
  scheduled : Scheduled y
  owned : Owned y
  clean : Clean y
  logged : Logged y

omit [DecidableEq σ] [DecidableEq ι] [DecidableEq γ] in
theorem serving_initial (fec : σ → Option (Nat × Nat)) : Serving (initial fec : State σ ι γ) := by
  refine ⟨scheduled_initial fec, owned_initial fec, fun i w p hw => ?_, fun s e he q hq => ?_, fun g s hg => ?_,
    fun s hs => ?_, trivial⟩
  · cases hw
  · obtain ⟨dp, -, rfl⟩ := Option.map_eq_some_iff.mp he
    cases hq
  · cases hg
  · cases hs

theorem Serving.step {e : Ev σ ι γ} (h : Serving y) (hu : Undisturbed y e) (hs : Step y e y') :
    Serving y' where
  scheduled := h.scheduled.step hs
  owned := owned_step h.owned hu.1 hs
  clean := clean_step h.clean h.logged h.scheduled.tok h.owned hu hs
  logged := logged_step h.logged h.clean hs

theorem serving_reachable {fec : σ → Option (Nat × Nat)} (hr : (undisturbed fec).Reachable y) :
    Serving y := by
  have hind : (undisturbed fec).Inductive fun y : State σ ι γ => Serving y := by
    refine ⟨fun y hy => ?_, fun _ _ _ h hs => h.step hs.2 (step_of_next hs.1)⟩
    replace hy : y = initial fec := hy
    rw [hy]
    exact serving_initial fec
  exact hind.reachable y hr

omit [DecidableEq σ] [DecidableEq ι] [DecidableEq γ] in
theorem BatchOk.outside {i : ι} {w : Nat} {p : Phase σ} (h : BatchOk y i w p)
    (hp : p.processes = none) : y.batch w = [] := by
  cases p <;> first | exact h | cases hp

/-- **Datagrams stay with their session.** In every run in which
`discardPostProcess` takes no request of a session that a worker is in
`postProcess` for, and every worker starts with a new `ppWorker`: each
datagram that the `tx` of a session wrote was built by that session from
requests taken from its own queue, before its `Close` returned; and outside
`postProcess`, so whenever it starts to serve a session, a worker's batch is
empty. -/
theorem datagram_isolation (fec : σ → Option (Nat × Nat)) (y : State σ ι γ) (hr : (undisturbed fec).Reachable y) :
    Isolated y.log ∧ ∀ i w p, y.worker i = .run w p → p.processes = none → y.batch w = [] := by
  have h := serving_reachable hr
  exact ⟨h.logged.log, fun i w p hw hp => (h.clean i w p hw).outside hp⟩

/-! ## Runs -/

instance {n m : Nat} (y : State (Fin n) (Fin m) γ) (e : Ev (Fin n) (Fin m) γ) : Decidable (Undisturbed y e) :=
  inferInstanceAs (Decidable (_ ∧ _))

instance decidableIsolated : (log : List (Act σ)) → Decidable (Isolated log)
  | [] => .isTrue trivial
  | .tx _ _ :: past =>
    have := decidableIsolated past
    inferInstanceAs (Decidable (_ ∧ _))
  | .pop _ _ :: past => decidableIsolated past
  | .closed _ :: past => decidableIsolated past

/-- A session with parity and copies sends a packet and is closed. -/
def isolatedRun : List (Ev (Fin 2) (Fin 2) (Fin 2)) :=
  .lock ix0 ix0 :: .setDUP ix0 1 :: put ⟨[1], false⟩ ++ .unlock ix0 :: List.replicate 15 (work ix0) ++ shut ix0 ++
    [.app ix0 4, .app ix0 4]

theorem datagram_isolation_parity : ∃ y : State (Fin 2) (Fin 2) (Fin 2),
    (undisturbed fun _ => some (1, 1)).Reachable y ∧
    y.log = [.closed 0, .tx 0 ⟨0, .parity [⟨[1], false⟩]⟩, .tx 0 ⟨0, .dup ⟨[1], false⟩⟩,
      .tx 0 ⟨0, .orig ⟨[1], false⟩⟩, .pop 0 ⟨[1], false⟩] ∧ Isolated y.log := by
  obtain ⟨y, hy, hl⟩ : ∃ y : State (Fin 2) (Fin 2) (Fin 2),
      LTS.play next (fun y e => decide (Undisturbed y e)) (initial fun _ => some (1, 1)) isolatedRun = some y ∧
      y.log = [.closed 0, .tx 0 ⟨0, .parity [⟨[1], false⟩]⟩, .tx 0 ⟨0, .dup ⟨[1], false⟩⟩,
        .tx 0 ⟨0, .orig ⟨[1], false⟩⟩, .pop 0 ⟨[1], false⟩] :=
    ⟨_, rfl, by decide +kernel⟩
  have hr : (undisturbed fun _ => some (1, 1)).Reachable y :=
    ⟨_, isolatedRun, rfl, LTS.play_run (M := undisturbed fun _ => some (1, 1))
      (fun _ _ _ hg hn => ⟨hn, of_decide_eq_true hg⟩) hy⟩
  exact ⟨y, hr, hl, (datagram_isolation (fun _ => some (1, 1)) y hr).1⟩

/-- Session 0 has two packets queued. The worker builds the first and sees
the second; `Close` drains it and returns; the worker finds nothing and
leaves with the first in its batch. -/
def stolenRun : List (Ev (Fin 2) (Fin 2) (Fin 2)) :=
  .lock ix0 ix0 :: put ⟨[1], false⟩ ++ [.output ix0 ⟨[2], false⟩, .app ix0 4, .app ix0 4, .unlock ix0] ++
    List.replicate 5 (work ix0) ++ shut ix0 ++ [.app ix0 4, .app ix0 4, .app ix0 4] ++ List.replicate 4 (work ix0)

/-- The worker serves session 1 next. -/
def nextSession : List (Ev (Fin 2) (Fin 2) (Fin 2)) :=
  .lock ix0 ix1 :: put ⟨[3], false⟩ ++ .unlock ix0 :: [work ix0]

/-- **A batch that `Close` interrupted.** The worker starts to serve session
1 with a datagram of session 0 in its batch, and the `tx` of session 1 writes
it after `Close` of session 0 has returned. -/
theorem stolen_batch :
    (∃ y : State (Fin 2) (Fin 2) (Fin 2), (system fun _ => none).Reachable y ∧
      y.worker 0 = .run 0 (.took 1) ∧ y.batch 0 = [⟨0, .orig ⟨[1], false⟩⟩]) ∧
    ∃ y : State (Fin 2) (Fin 2) (Fin 2), (system fun _ => none).Reachable y ∧
      y.log = [.tx 1 ⟨0, .orig ⟨[1], false⟩⟩, .pop 1 ⟨[3], false⟩, .closed 0, .pop 0 ⟨[1], false⟩] ∧
      ¬ Isolated y.log := by
  have reach : ∀ {es : List (Ev (Fin 2) (Fin 2) (Fin 2))} {y},
      LTS.play next (fun _ _ => true) (initial fun _ => none) es = some y → (system fun _ => none).Reachable y :=
    fun hy => ⟨_, _, rfl, LTS.play_run (fun _ _ _ _ hn => hn) hy⟩
  refine ⟨?_, ?_⟩
  · obtain ⟨y, hy, hw, hb⟩ : ∃ y : State (Fin 2) (Fin 2) (Fin 2),
        LTS.play next (fun _ _ => true) (initial fun _ => none) (stolenRun ++ nextSession) = some y ∧
        y.worker 0 = .run 0 (.took 1) ∧ y.batch 0 = [⟨0, .orig ⟨[1], false⟩⟩] :=
      ⟨_, rfl, by decide +kernel, by decide +kernel⟩
    exact ⟨y, reach hy, hw, hb⟩
  · obtain ⟨y, hy, hl⟩ : ∃ y : State (Fin 2) (Fin 2) (Fin 2),
        LTS.play next (fun _ _ => true) (initial fun _ => none)
          (stolenRun ++ nextSession ++ List.replicate 6 (work 0)) = some y ∧
        y.log = [.tx 1 ⟨0, .orig ⟨[1], false⟩⟩, .pop 1 ⟨[3], false⟩, .closed 0, .pop 0 ⟨[1], false⟩] :=
      ⟨_, rfl, by decide +kernel⟩
    refine ⟨y, reach hy, hl, ?_⟩
    rw [hl]
    decide

end KcpGo.L5
