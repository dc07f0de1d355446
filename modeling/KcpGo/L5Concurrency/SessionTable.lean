import KcpGo.Core.Claim
import KcpGo.L5Concurrency.Listening

/-!
# The session table of a listener

* `Tabled`: the table holds the registered sessions whose `Close` has not yet
  reached `closeSession`, each under its own address.
* `Called`, `Placed`: where the calls of `Close` and `packetInput` can be.
* `Sent`, `Released`: the channel of accepted sessions, and the receiver.
* `session_table`: the safety of every interleaving.
-/
namespace KcpGo.L5.Listening

open KcpGo.L4

variable {Addr γ : Type} [DecidableEq Addr] [DecidableEq γ]

/-! ## Invariants -/

/-- Its `Close` has not reached `closeSession`. -/
def Once.live : Once → Bool
  | .idle => true
  | .running => true
  | _ => false

/-- The function of `dieOnce.Do` is running. -/
def Once.busy : Once → Bool
  | .running => true
  | .detached => true
  | _ => false

/-- The session whose `dieOnce.Do` a call is inside. -/
def Call.within : Call → Option Nat
  | .closing _ .enter => none
  | .closing i _ => some i
  | _ => none

def Call.removes : Call → Bool
  | .unregister => true
  | .closing _ .unregister => true
  | _ => false

namespace State

variable (y : State Addr γ)

def addrOf (i : Nat) : Option Addr := y.made[i]?.map Prod.fst

/-- The goroutine is inside `dieOnce.Do` of session `i`. -/
def Inside (i : Nat) (t : Option γ) : Prop := (y.calls t).within = some i

/-- The goroutine is about to remove the receiver. -/
def Removing (t : Option γ) : Prop := (y.calls t).removes = true

/-- The receiver has to be removed and has not been. -/
def due : Bool := y.releases && decide (y.removed = 0)

end State

/-- The table is the registered sessions that are live, under their addresses. -/
structure Tabled (y : State Addr γ) : Prop where
  fresh : ∀ i ∈ y.registered, i < y.made.length
  table : ∀ a i, y.sessions.lookup a = some i ↔ i ∈ y.registered ∧ (y.once i).live = true ∧ y.addrOf i = some a

/-- The calls of `Close`. -/
structure Called (y : State Addr γ) : Prop where
  inside : ∀ i, Claimed (y.once i).busy (y.Inside i)
  body : ∀ t i, y.calls t = .closing i .body → y.once i = .running
  past : ∀ t i, y.calls t = .closing i .unregister ∨ y.calls t = .closing i .leave → y.once i = .detached
  known : ∀ t i c, y.calls (some t) = .closing i c → i ∈ y.registered
  returned : ∀ i ∈ y.returned, y.once i = .finished
  unborn : ∀ i, y.made.length ≤ i → y.once i = .idle

/-- Where `packetInput` is, and what it knows there. -/
def Placed (y : State Addr γ) : Prop :=
  match y.input with
  | .idle => y.calls none = .idle
  | .evict a _ i => i ∈ y.registered ∧ (∀ j, y.sessions.lookup a = some j → j = i) ∧
      ((∃ c, y.calls none = .closing i c) ∨ y.calls none = .idle ∧ y.once i = .finished)
  | .check a _ => y.calls none = .idle ∧ y.sessions.lookup a = none
  | .made i => y.calls none = .idle ∧ i ∉ y.registered ∧ y.once i = .idle ∧ y.chAccepts.length < acceptBacklog ∧
      ∃ a, y.addrOf i = some a ∧ y.sessions.lookup a = none
  | .send _ => y.calls none = .idle ∧ y.chAccepts.length < acceptBacklog
  | .discard i => i ∉ y.registered ∧ (∃ a, y.addrOf i = some a ∧ y.sessions.lookup a = none) ∧
      ((∃ c, y.calls none = .closing i c) ∨ y.calls none = .idle)

/-- A registered session was sent, or is the one being sent. -/
structure Sent (y : State Addr γ) : Prop where
  nodup : y.registered.Nodup
  sent : y.registered = y.sent ++ match y.input with
    | .send i => [i]
    | _ => []

/-- The removal of the receiver is claimed by one goroutine, or done. -/
structure Released (y : State Addr γ) : Prop where
  claimed : Claimed y.due y.Removing
  once : y.removed ≤ 1
  only : 0 < y.removed → y.releases = true

structure Inv (y : State Addr γ) : Prop where
  tabled : Tabled y
  called : Called y
  placed : Placed y
  sent : Sent y
  released : Released y

omit [DecidableEq γ] in
theorem inv_initial (pusher : Bool) : Inv (initial pusher : State Addr γ) where
  tabled := ⟨by simp [initial], by simp [initial]⟩
  called := {
    inside := fun i => Claimed.none.congr fun t => by simp [State.Inside, initial, Call.within]
    body := by simp [initial]
    past := by simp [initial]
    known := by simp [initial]
    returned := by simp [initial]
    unborn := fun i _ => rfl }
  placed := rfl
  sent := ⟨by simp [initial], by simp [initial]⟩
  released := {
    claimed := Claimed.none.congr fun t => by simp [State.Removing, initial, Call.removes]
    once := by simp [initial]
    only := by simp [initial] }

section
variable {y y' : State Addr γ} {l : Label Addr γ}
variable {i : Nat} {t : Option γ} {c : Call}

omit [DecidableEq γ] in
theorem Placed.made (h : Placed y) (hin : y.input = .made i) : y.calls none = .idle ∧ i ∉ y.registered ∧
    y.once i = .idle ∧ y.chAccepts.length < acceptBacklog ∧ ∃ a, y.addrOf i = some a ∧ y.sessions.lookup a = none := by
  unfold Placed at h
  rw [hin] at h
  exact h

/-! ### The table -/

omit [DecidableEq Addr] [DecidableEq γ] in
theorem addrOf_get {m : Addr × UInt32} (h : y.made[i]? = some m) : y.addrOf i = some m.1 := by
  simp [State.addrOf, h]

omit [DecidableEq γ] in
/-- Who calls `Close` got the session from the table, or made it just now. -/
theorem Inv.closer (h : Inv y) {c : Closing} (hc : y.calls t = .closing i c) :
    i ∈ y.registered ∨ y.input = .discard i ∧ ∃ a, y.addrOf i = some a ∧ y.sessions.lookup a = none := by
  cases t with
  | some t => exact .inl (h.called.known t i c hc)
  | none =>
    have hp := h.placed
    unfold Placed at hp
    cases hin : y.input with
    | evict a conv j =>
      simp only [hin, hc] at hp
      obtain ⟨hj, -, ⟨c', he⟩ | ⟨he, -⟩⟩ := hp
      · cases he
        exact .inl hj
      · cases he
    | discard j =>
      simp only [hin, hc] at hp
      obtain ⟨-, ha, ⟨c', he⟩ | he⟩ := hp
      · cases he
        exact .inr ⟨rfl, ha⟩
      · cases he
    | _ => simp [hin, hc] at hp

omit [DecidableEq γ] in
/-- **What `closeSession` deletes is the session that is closed.** -/
theorem Inv.entry (h : Inv y) {j : Nat} {m : Addr × UInt32} (hc : y.calls t = .closing i .body)
    (hm : y.made[i]? = some m) (ha : y.sessions.lookup m.1 = some j) : j = i ∧ i ∈ y.registered := by
  rcases h.closer hc with hi | ⟨-, a, haddr, hnone⟩
  · have hlive : (y.once i).live = true := by
      rw [h.called.body t i hc]
      rfl
    have := (h.tabled.table m.1 i).mpr ⟨hi, hlive, addrOf_get hm⟩
    rw [ha] at this
    exact ⟨Option.some.inj this, hi⟩
  · rw [addrOf_get hm] at haddr
    cases haddr
    rw [ha] at hnone
    cases hnone

omit [DecidableEq γ] in
/-- A session stays live, or stays dead. -/
theorem Tabled.relive (h : Tabled y) {o : Once} (ho : o.live = (y.once i).live) (a : Addr) (j : Nat) :
    y.sessions.lookup a = some j ↔ j ∈ y.registered ∧ (Function.update y.once i o j).live = true ∧
      y.addrOf j = some a := by
  rw [h.table]
  by_cases hj : j = i
  · subst hj
    simp [ho]
  · simp [hj]

/-- A session that stops being live and whose entry goes. -/
theorem Tabled.detached (h : Tabled y)
    {sessions : KcpGo.Table Addr Nat} (hs : ∀ b k, sessions.lookup b = some k ↔ y.sessions.lookup b = some k ∧ k ≠ i)
     : Tabled (({ y with sessions := sessions }.setOnce i .detached).goCall t c) := by
  refine ⟨h.fresh, fun b k => ?_⟩
  show sessions.lookup b = some k ↔ k ∈ y.registered ∧ (Function.update y.once i .detached k).live = true ∧
    y.addrOf k = some b
  rw [hs, h.table]
  by_cases hk : k = i
  · subst hk
    simp [Once.live]
  · simp [hk]

theorem tabled_step (h : Inv y) (hs : Step y l y') : Tabled y' := by
  obtain ⟨hfresh, htable⟩ := h.tabled
  cases hs with
  | @make addr conv hin hroom =>
    refine ⟨fun i hi => ?_, fun a i => ?_⟩
    · have := hfresh i hi
      simp only [List.length_append, List.length_singleton]
      omega
    · show y.sessions.lookup a = some i ↔ i ∈ y.registered ∧ (y.once i).live = true ∧
        (y.made ++ [(addr, conv)])[i]?.map Prod.fst = some a
      rw [htable]
      refine and_congr_right fun hi => ?_
      rw [List.getElem?_append_left (hfresh i hi)]
      rfl
  | @register i m hin hd hm =>
    obtain ⟨-, hnew, honce, -, a, haddr, hnone⟩ := h.placed.made hin
    have hlen : i < y.made.length := (List.getElem?_eq_some_iff.mp hm).1
    rw [addrOf_get hm] at haddr
    cases haddr
    refine ⟨fun j hj => ?_, fun b j => ?_⟩
    · rcases List.mem_append.mp hj with hj | hj
      · exact hfresh j hj
      · simp only [List.mem_singleton] at hj
        rw [hj]
        exact hlen
    · show (y.sessions.insert m.1 i).lookup b = some j ↔ j ∈ y.registered ++ [i] ∧
        (y.once j).live = true ∧ y.addrOf j = some b
      by_cases hb : b = m.1
      · subst hb
        rw [AList.lookup_insert]
        constructor
        · intro hij
          cases hij
          exact ⟨by simp, by rw [honce]; rfl, addrOf_get hm⟩
        · rintro ⟨hj, hlive, haddr⟩
          rcases List.mem_append.mp hj with hj | hj
          · rw [(htable m.1 j).mpr ⟨hj, hlive, haddr⟩] at hnone
            cases hnone
          · simp only [List.mem_singleton] at hj
            rw [hj]
      · rw [AList.lookup_insert_ne hb, htable]
        constructor
        · rintro ⟨hj, hrest⟩
          exact ⟨List.mem_append_left _ hj, hrest⟩
        · rintro ⟨hj, hlive, haddr⟩
          rcases List.mem_append.mp hj with hj | hj
          · exact ⟨hj, hlive, haddr⟩
          · simp only [List.mem_singleton] at hj
            rw [hj, addrOf_get hm] at haddr
            cases haddr
            exact absurd rfl hb
  | @first t i hc ho =>
    exact ⟨hfresh, h.tabled.relive (by rw [ho]; rfl)⟩
  | @missed t i m hc hm ha =>
    refine h.tabled.detached fun b k => ?_
    refine ⟨fun hk => ⟨hk, ?_⟩, And.left⟩
    rintro rfl
    have := ((htable b k).mp hk).2.2
    rw [addrOf_get hm] at this
    cases this
    rw [ha] at hk
    cases hk
  | @detach t i j m hc hm ha =>
    obtain ⟨rfl, -⟩ := h.entry hc hm ha
    refine h.tabled.detached fun b k => ?_
    by_cases hb : b = m.1
    · subst hb
      rw [AList.lookup_erase, ha]
      simp [eq_comm]
    · rw [AList.lookup_erase_ne hb]
      refine ⟨fun hk => ⟨hk, ?_⟩, And.left⟩
      rintro rfl
      have := ((htable b k).mp hk).2.2
      rw [addrOf_get hm] at this
      cases this
      exact hb rfl
  | @leave t i hc =>
    exact ⟨hfresh, h.tabled.relive (by rw [h.called.past t i (.inr hc)]; rfl)⟩
  | _ => exact ⟨hfresh, htable⟩

/-! ### Calls of `Close` -/

omit [DecidableEq γ] in
theorem Inv.closer_lt (h : Inv y) {c : Closing} (hc : y.calls t = .closing i c) : i < y.made.length := by
  rcases h.closer hc with hi | ⟨-, a, ha, -⟩
  · exact h.tabled.fresh i hi
  · obtain ⟨m, hm, -⟩ := Option.map_eq_some_iff.mp ha
    exact (List.getElem?_eq_some_iff.mp hm).1

omit [DecidableEq Addr] in
/-- A goroutine moves between two calls that hold the claim, or do not. -/
theorem claimed_keep {b : Bool} {P : Call → Prop} (h : Claimed b fun x => P (y.calls x))
    (hP : P c ↔ P (y.calls t)) : Claimed b fun x => P ((y.goCall t c).calls x) := by
  refine h.congr fun x => ?_
  by_cases hx : x = t
  · subst hx
    simpa [State.goCall] using hP
  · simp [State.goCall, hx]

omit [DecidableEq Addr] in
/-- A call moves from one place where it knows nothing of `dieOnce` to another. -/
theorem Called.outside (h : Called y) (hc : c.within = none) (hold : (y.calls t).within = none)
    (hknown : ∀ t' i d, t = some t' → c = .closing i d → i ∈ y.registered) : Called (y.goCall t c) where
  inside i := claimed_keep (P := fun c => c.within = some i) (h.inside i) (by simp [hc, hold])
  body := by
    intro x i hx
    by_cases hxt : x = t
    · subst hxt
      simp only [State.goCall, Function.update_self] at hx
      simp [hx, Call.within] at hc
    · exact h.body x i (by simpa [State.goCall, hxt] using hx)
  past := by
    intro x i hx
    by_cases hxt : x = t
    · subst hxt
      simp only [State.goCall, Function.update_self] at hx
      rcases hx with hx | hx <;> simp [hx, Call.within] at hc
    · exact h.past x i (by simpa [State.goCall, hxt] using hx)
  known := by
    intro x i d hx
    by_cases hxt : some x = t
    · subst hxt
      simp only [State.goCall, Function.update_self] at hx
      exact hknown x i d rfl hx
    · exact h.known x i d (by simpa [State.goCall, hxt] using hx)
  returned := h.returned
  unborn := h.unborn

theorem within_eq (h : c.within = some i) :
    c = .closing i .body ∨ c = .closing i .unregister ∨ c = .closing i .leave := by
  cases c with
  | closing j d => cases d <;> simp_all [Call.within]
  | _ => simp [Call.within] at h

omit [DecidableEq Addr] in
/-- The goroutine that is inside `dieOnce.Do` of `i`, or the first to come in,
goes on there. -/
theorem Called.turn (h : Called y) {o : Once} {r : List Nat} (hlt : i < y.made.length)
    (hfin : y.once i ≠ .finished) (hother : ∀ x, x ≠ t → ¬ y.Inside i x) (hold : ∀ j, y.Inside j t → j = i)
    (hw : ∀ j, c.within = some j → j = i) (hbusy : o.busy = true ↔ c.within = some i)
    (hbody : c = .closing i .body → o = .running)
    (hpast : c = .closing i .unregister ∨ c = .closing i .leave → o = .detached)
    (hknown : ∀ t' j d, t = some t' → c = .closing j d → j ∈ y.registered)
    (hr : ∀ j ∈ r, j ∈ y.returned ∨ j = i ∧ o = .finished) :
    Called (({ y with returned := r }.setOnce i o).goCall t c) := by
  -- another goroutine is inside another session
  have hne : ∀ x j, x ≠ t → (y.calls x).within = some j → j ≠ i := by
    intro x j hx hj hji
    subst hji
    exact hother x hx hj
  refine ⟨fun j => ?_, fun x j hx => ?_, fun x j hx => ?_, fun x j d hx => ?_, fun j hj => ?_, fun j hj => ?_⟩
  · show Claimed (Function.update y.once i o j).busy fun x => (Function.update y.calls t c x).within = some j
    by_cases hj : j = i
    · subst hj
      have honly : ∀ x, (Function.update y.calls t c x).within = some j → x = t := by
        intro x hx
        by_contra hxt
        rw [Function.update_of_ne hxt] at hx
        exact hother x hxt hx
      refine ⟨fun x z hx hz => (honly x hx).trans (honly z hz).symm, ?_⟩
      rw [Function.update_self, hbusy]
      constructor
      · intro hc
        exact ⟨t, by simpa using hc⟩
      · intro ⟨x, hx⟩
        cases honly x hx
        simpa using hx
    · rw [Function.update_of_ne hj]
      refine (h.inside j).congr fun x => ?_
      by_cases hx : x = t
      · subst hx
        rw [Function.update_self]
        exact ⟨fun hc => absurd (hw j hc) hj, fun hc => absurd (hold j hc) hj⟩
      · rw [Function.update_of_ne hx]
        rfl
  · replace hx : Function.update y.calls t c x = .closing j .body := hx
    show Function.update y.once i o j = .running
    by_cases hxt : x = t
    · subst hxt
      rw [Function.update_self] at hx
      cases hw j (by rw [hx]; rfl)
      rw [Function.update_self]
      exact hbody hx
    · rw [Function.update_of_ne hxt] at hx
      rw [Function.update_of_ne (hne x j hxt (by rw [hx]; rfl))]
      exact h.body x j hx
  · replace hx : Function.update y.calls t c x = .closing j .unregister ∨
      Function.update y.calls t c x = .closing j .leave := hx
    show Function.update y.once i o j = .detached
    have hin : (Function.update y.calls t c x).within = some j := by
      rcases hx with hx | hx <;> simp [hx, Call.within]
    by_cases hxt : x = t
    · subst hxt
      rw [Function.update_self] at hx hin
      cases hw j hin
      rw [Function.update_self]
      exact hpast hx
    · rw [Function.update_of_ne hxt] at hx hin
      rw [Function.update_of_ne (hne x j hxt hin)]
      exact h.past x j hx
  · replace hx : Function.update y.calls t c (some x) = .closing j d := hx
    by_cases hxt : some x = t
    · subst hxt
      rw [Function.update_self] at hx
      exact hknown x j d rfl hx
    · rw [Function.update_of_ne hxt] at hx
      exact h.known x j d hx
  · show Function.update y.once i o j = .finished
    rcases hr j hj with hj | ⟨rfl, ho⟩
    · have hfj := h.returned j hj
      have hji : j ≠ i := by
        intro hji
        subst hji
        exact hfin hfj
      rw [Function.update_of_ne hji]
      exact hfj
    · rw [Function.update_self]
      exact ho
  · show Function.update y.once i o j = .idle
    have hji : j ≠ i := by
      intro hji
      subst hji
      exact Nat.not_lt.mpr hj hlt
    rw [Function.update_of_ne hji]
    exact h.unborn j hj

omit [DecidableEq Addr] [DecidableEq γ] in
/-- Inside, nobody else is. -/
theorem Called.alone (h : Called y) (hin : y.Inside i t) :
    y.once i ≠ .finished ∧ (∀ x, x ≠ t → ¬ y.Inside i x) ∧ ∀ j, y.Inside j t → j = i := by
  refine ⟨fun hf => ?_, fun x hx hi => hx ((h.inside i).unique x t hi hin), fun j hj => ?_⟩
  · have := (h.inside i).flag_eq hin
    rw [hf] at this
    cases this
  · exact Option.some.inj (hj.symm.trans hin)

omit [DecidableEq Addr] [DecidableEq γ] in
theorem Called.inside_known (h : Called y) {t : γ} (hin : y.Inside i (some t)) : i ∈ y.registered := by
  rcases within_eq hin with hc | hc | hc <;> exact h.known t i _ hc

omit [DecidableEq Addr] in
/-- Inside, after `closeSession`. -/
theorem Called.detached (h : Called y) {d : Closing} (hlt : i < y.made.length) (hin : y.Inside i t)
    (hd : d = .unregister ∨ d = .leave) : Called ((y.setOnce i .detached).goCall t (.closing i d)) := by
  obtain ⟨hfin, hother, hold⟩ := h.alone hin
  have hw : (Call.closing i d).within = some i := by
    rcases hd with rfl | rfl <;> rfl
  have hbody : Call.closing i d ≠ .closing i .body := by
    rcases hd with rfl | rfl <;> simp
  refine h.turn hlt hfin hother hold (fun j hj => ?_) (by simp [Once.busy, hw])
    (fun hc => absurd hc hbody) (fun _ => rfl) ?_
    fun j hj => .inl hj
  · exact Option.some.inj (hj.symm.trans hw)
  · intro t' j d' ht hc
    subst ht
    cases hc
    exact h.inside_known hin

theorem called_step (h : Inv y) (hs : Step y l y') : Called y' := by
  have hcd := h.called
  cases hs with
  | @evict addr o i hin ha =>
    have hnone : y.calls none = .idle := by
      have := h.placed
      simpa [Placed, hin] using this
    have hy : Called ({ y with input := .evict addr o.conv i } : State Addr γ) :=
      ⟨hcd.1, hcd.2, hcd.3, hcd.4, hcd.5, hcd.6⟩
    exact hy.outside rfl (by simp [hnone, Call.within]) (by simp)
  | @late i hin hd =>
    obtain ⟨hnone, -⟩ := h.placed.made hin
    have hy : Called ({ y with input := .discard i } : State Addr γ) := ⟨hcd.1, hcd.2, hcd.3, hcd.4, hcd.5, hcd.6⟩
    exact hy.outside rfl (by simp [hnone, Call.within]) (by simp)
  | @make addr conv hin hroom =>
    refine ⟨hcd.1, hcd.2, hcd.3, hcd.4, hcd.5, fun i hi => hcd.unborn i ?_⟩
    simp only [List.length_append, List.length_singleton] at hi
    omega
  | @register i m hin hd hm =>
    exact ⟨hcd.1, hcd.2, hcd.3, fun t j c hc => List.mem_append_left _ (hcd.known t j c hc), hcd.5, hcd.6⟩
  | @close t i hc hi =>
    refine hcd.outside rfl (by simp [hc, Call.within]) fun t' j d ht hd => ?_
    cases hd
    exact hi
  | @closeListener t hc hd =>
    have hy : Called ({ y with die := true } : State Addr γ) := ⟨hcd.1, hcd.2, hcd.3, hcd.4, hcd.5, hcd.6⟩
    refine hy.outside ?_ (by simp [hc, Call.within]) fun t' j d ht hd => ?_
    · split <;> rfl
    · split at hd <;> cases hd
  | @first t i hc ho =>
    refine hcd.turn (h.closer_lt hc) (by simp [ho]) ?_ (by simp [State.Inside, hc, Call.within])
      (by simp [Call.within, eq_comm])
      (by simp [Once.busy, Call.within]) (by simp) (by simp) ?_ fun j hj => .inl hj
    · intro x hx hin
      have := (hcd.inside i).flag_eq hin
      rw [ho] at this
      cases this
    · intro t' j d ht hd
      subst ht
      cases hd
      exact hcd.known t' i _ hc
  | @again t i hc ho =>
    have hy : Called ({ y with returned := i :: y.returned } : State Addr γ) := by
      refine ⟨hcd.1, hcd.2, hcd.3, hcd.4, fun j hj => ?_, hcd.6⟩
      rcases List.mem_cons.mp hj with hj | hj
      · subst hj
        exact ho
      · exact hcd.returned j hj
    exact hy.outside rfl (by simp [hc, Call.within]) (by simp)
  | @missed t i m hc hm ha =>
    exact hcd.detached (h.closer_lt hc) (by simp [State.Inside, hc, Call.within]) (.inr rfl)
  | @detach t i j m hc hm ha =>
    have hy : Called ({ y with sessions := y.sessions.erase m.1 } : State Addr γ) :=
      ⟨hcd.1, hcd.2, hcd.3, hcd.4, hcd.5, hcd.6⟩
    refine hy.detached (h.closer_lt hc) (by simp [State.Inside, hc, Call.within]) ?_
    split
    · exact .inl rfl
    · exact .inr rfl
  | @removeL t hc =>
    have hy : Called ({ y with removed := y.removed + 1 } : State Addr γ) := ⟨hcd.1, hcd.2, hcd.3, hcd.4, hcd.5, hcd.6⟩
    exact hy.outside rfl (by simp [hc, Call.within]) (by simp)
  | @remove t i hc =>
    have hy : Called ({ y with removed := y.removed + 1 } : State Addr γ) := ⟨hcd.1, hcd.2, hcd.3, hcd.4, hcd.5, hcd.6⟩
    have ho : ({ y with removed := y.removed + 1 } : State Addr γ).once i = .detached := hcd.past t i (.inl hc)
    have hstay := hy.detached (h.closer_lt hc) (t := t) (by simp [State.Inside, hc, Call.within]) (.inr rfl)
    rwa [setOnce_self ho] at hstay
  | @leave t i hc =>
    obtain ⟨hfin, hother, hold⟩ := hcd.alone (t := t) (i := i) (by simp [State.Inside, hc, Call.within])
    refine hcd.turn (h.closer_lt hc) hfin hother hold (by simp [Call.within])
      (by simp [Once.busy, Call.within]) (by simp) (by simp)
      (by simp) fun j hj => ?_
    rcases List.mem_cons.mp hj with hj | hj
    · exact .inr ⟨hj, rfl⟩
    · exact .inl hj
  | _ => exact ⟨hcd.1, hcd.2, hcd.3, hcd.4, hcd.5, hcd.6⟩

/-! ### `packetInput` -/

omit [DecidableEq γ] in
/-- Nothing that `packetInput` looks at changes, but for room in the channel. -/
theorem Placed.frame (h : Placed y) (hin : y'.input = y.input) (hcalls : y'.calls none = y.calls none)
    (hmade : y'.made = y.made) (hreg : y'.registered = y.registered) (hsess : y'.sessions = y.sessions)
    (honce : y'.once = y.once)
    (hroom : y'.chAccepts.length ≤ y.chAccepts.length) : Placed y' := by
  unfold Placed at h ⊢
  simp only [State.addrOf, hin, hcalls, hmade, hreg, hsess, honce] at h ⊢
  cases hi : y.input with
  | made i =>
    simp only [hi] at h ⊢
    exact ⟨h.1, h.2.1, h.2.2.1, Nat.lt_of_le_of_lt hroom h.2.2.2.1, h.2.2.2.2⟩
  | send i =>
    simp only [hi] at h ⊢
    exact ⟨h.1, Nat.lt_of_le_of_lt hroom h.2⟩
  | _ => simpa only [hi] using h

omit [DecidableEq γ] in
/-- A step of a call of `Close`, by `packetInput` or another. -/
theorem Inv.placed_closing (h : Inv y) {c : Closing} (hc : y.calls t = .closing i c)
    (hin : y'.input = y.input) (hmade : y'.made = y.made) (hreg : y'.registered = y.registered)
    (hacc : y'.chAccepts = y.chAccepts)
    (hshrink : ∀ a j, y'.sessions.lookup a = some j → y.sessions.lookup a = some j)
    (honce : ∀ j, j ≠ i → y'.once j = y.once j) (hfin : y.once i = .finished → y'.once i = .finished)
    (hcalls : ∀ x, x ≠ t → y'.calls x = y.calls x)
    (hown : (∃ d, y'.calls t = .closing i d) ∨ y'.calls t = .idle ∧ y'.once i = .finished) :
    Placed y' := by
  have hp := h.placed
  have hnone : ∀ a, y.sessions.lookup a = none → y'.sessions.lookup a = none := by
    intro a ha
    cases ha' : y'.sessions.lookup a with
    | none => rfl
    | some j =>
      rw [hshrink a j ha'] at ha
      cases ha
  unfold Placed at hp ⊢
  simp only [State.addrOf, hin, hmade, hreg, hacc] at hp ⊢
  cases t with
  | none =>
    -- `packetInput` is in `Close` in two places only
    cases hi : y.input with
    | evict a conv k =>
      simp only [hi, hc] at hp ⊢
      obtain ⟨hk, honly, ⟨d, he⟩ | ⟨he, -⟩⟩ := hp
      · cases he
        exact ⟨hk, fun j hj => honly j (hshrink a j hj), hown⟩
      · cases he
    | discard k =>
      simp only [hi, hc] at hp ⊢
      obtain ⟨hk, ⟨a, ha, hl⟩, ⟨d, he⟩ | he⟩ := hp
      · cases he
        exact ⟨hk, ⟨a, ha, hnone a hl⟩, hown.imp_right And.left⟩
      · cases he
    | _ => simp [hi, hc] at hp
  | some t =>
    have hreg := h.called.known t i c hc
    rw [hcalls none (by simp)]
    cases hi : y.input with
    | evict a conv k =>
      simp only [hi] at hp ⊢
      obtain ⟨hk, honly, hcall⟩ := hp
      refine ⟨hk, fun j hj => honly j (hshrink a j hj), hcall.imp_right fun ⟨hidle, hf⟩ => ⟨hidle, ?_⟩⟩
      by_cases hki : k = i
      · subst hki
        exact hfin hf
      · rw [honce k hki]
        exact hf
    | check a conv =>
      simp only [hi] at hp ⊢
      exact ⟨hp.1, hnone a hp.2⟩
    | made k =>
      simp only [hi] at hp ⊢
      obtain ⟨hidle, hk, ho, hroom, a, ha, hl⟩ := hp
      have hki : k ≠ i := by
        intro hki
        subst hki
        exact hk hreg
      rw [honce k hki]
      exact ⟨hidle, hk, ho, hroom, a, ha, hnone a hl⟩
    | discard k =>
      simp only [hi] at hp ⊢
      obtain ⟨hk, ⟨a, ha, hl⟩, hcall⟩ := hp
      exact ⟨hk, ⟨a, ha, hnone a hl⟩, hcall⟩
    | _ => simpa only [hi] using hp

theorem placed_step (h : Inv y) (hs : Step y l y') : Placed y' := by
  have hp := h.placed
  cases hs with
  | skip l => exact hp
  | @fresh addr o hin ha =>
    simp only [Placed, hin] at hp
    exact ⟨hp, ha⟩
  | @evict addr o i hin ha =>
    refine ⟨((h.tabled.table addr i).mp ha).1, fun j hj => ?_, .inl ⟨.enter, by simp [State.goCall]⟩⟩
    exact Option.some.inj (hj.symm.trans ha)
  | @resume addr conv i hin hc =>
    simp only [Placed, hin, hc] at hp
    obtain ⟨hi, honly, ⟨d, he⟩ | ⟨-, hf⟩⟩ := hp
    · cases he
    refine ⟨hc, Option.eq_none_iff_forall_ne_some.mpr fun j hj => ?_⟩
    have hlive := ((h.tabled.table addr j).mp hj).2.1
    rw [honly j hj, hf] at hlive
    cases hlive
  | @refuse addr conv hin =>
    simp only [Placed, hin] at hp
    exact hp.1
  | @make addr conv hin hroom =>
    simp only [Placed, hin] at hp
    refine ⟨hp.1, fun hi => Nat.lt_irrefl _ (h.tabled.fresh _ hi), h.called.unborn _ (Nat.le_refl _), hroom, addr, ?_,
      hp.2⟩
    simp [State.addrOf]
  | @late i hin hd =>
    obtain ⟨hidle, hi, -, -, a, ha, hl⟩ := hp.made hin
    exact ⟨hi, ⟨a, ha, hl⟩, .inl ⟨.enter, by simp [State.goCall]⟩⟩
  | @register i m hin hd hm =>
    obtain ⟨hidle, -, -, hroom, -⟩ := hp.made hin
    exact ⟨hidle, hroom⟩
  | @send i hin =>
    simp only [Placed, hin] at hp
    exact hp.1
  | @discarded i hin hc => exact hc
  | @close t i hc hi => exact hp.frame rfl (by simp [State.goCall]) rfl rfl rfl rfl (Nat.le_refl _)
  | @closeListener t hc hd => exact hp.frame rfl (by simp [State.goCall]) rfl rfl rfl rfl (Nat.le_refl _)
  | @first t i hc ho =>
    refine h.placed_closing hc rfl rfl rfl rfl (fun a j hj => hj)
      (fun j hj => by simp [State.goCall, State.setOnce, hj]) (by simp [ho])
      (fun x hx => by simp [State.goCall, State.setOnce, hx]) (.inl ⟨.body, by simp [State.goCall]⟩)
  | @again t i hc ho =>
    exact h.placed_closing hc rfl rfl rfl rfl (fun a j hj => hj) (fun j hj => rfl) (fun hf => hf)
      (fun x hx => by simp [State.goCall, hx]) (.inr ⟨by simp [State.goCall], ho⟩)
  | @missed t i m hc hm ha =>
    exact h.placed_closing hc rfl rfl rfl rfl (fun a j hj => hj) (fun j hj => by simp [State.goCall, State.setOnce, hj])
      (by simp [h.called.body t i hc]) (fun x hx => by simp [State.goCall, State.setOnce, hx])
        (.inl ⟨.leave, by simp [State.goCall]⟩)
  | @detach t i j m hc hm ha =>
    refine h.placed_closing hc rfl rfl rfl rfl (fun a k hk => ?_)
      (fun j hj => by simp [State.goCall, State.setOnce, hj])
      (by simp [h.called.body t i hc]) (fun x hx => by simp [State.goCall, State.setOnce, hx])
        (.inl ⟨_, by simp [State.goCall]; rfl⟩)
    replace hk : (y.sessions.erase m.1).lookup a = some k := hk
    by_cases hb : a = m.1
    · subst hb
      simp [AList.lookup_erase] at hk
    · rwa [AList.lookup_erase_ne hb] at hk
  | @removeL t hc =>
    cases t with
    | none =>
      unfold Placed at hp
      cases hin : y.input <;> simp [hin, hc] at hp
    | some t => exact hp.frame rfl (by simp [State.goCall]) rfl rfl rfl rfl (Nat.le_refl _)
  | @remove t i hc =>
    exact h.placed_closing hc rfl rfl rfl rfl (fun a j hj => hj) (fun j hj => rfl) (fun hf => hf)
      (fun x hx => by simp [State.goCall, hx]) (.inl ⟨.leave, by simp [State.goCall]⟩)
  | @leave t i hc =>
    exact h.placed_closing hc rfl rfl rfl rfl (fun a j hj => hj) (fun j hj => by simp [State.goCall, State.setOnce, hj])
      (by simp [State.goCall, State.setOnce]) (fun x hx => by simp [State.goCall, State.setOnce, hx])
      (.inr ⟨by simp [State.goCall], by simp [State.goCall, State.setOnce]⟩)
  | accept => exact hp.frame rfl rfl rfl rfl rfl rfl (by simp)

/-! ### The channel -/

theorem sent_step (h : Inv y) (hs : Step y l y') : Sent y' := by
  obtain ⟨hnodup, hsent⟩ := h.sent
  cases hs with
  | @register i m hin hd hm =>
    obtain ⟨-, hi, -⟩ := h.placed.made hin
    simp only [hin, List.append_nil] at hsent
    refine ⟨?_, ?_⟩
    · show (y.registered ++ [i]).Nodup
      rw [List.nodup_append]
      exact ⟨hnodup, by simp, by simpa using fun a ha => ne_of_mem_of_not_mem ha hi⟩
    · show y.registered ++ [i] = y.sent ++ [i]
      rw [hsent]
  | @send i hin =>
    simp only [hin] at hsent
    exact ⟨hnodup, by simpa using hsent⟩
  | @fresh addr o hin ha => exact ⟨hnodup, by simpa [hin] using hsent⟩
  | @evict addr o i hin ha => exact ⟨hnodup, by simpa [hin, State.goCall] using hsent⟩
  | @resume addr conv i hin hc => exact ⟨hnodup, by simpa [hin] using hsent⟩
  | @refuse addr conv hin => exact ⟨hnodup, by simpa [hin] using hsent⟩
  | @make addr conv hin hroom => exact ⟨hnodup, by simpa [hin] using hsent⟩
  | @late i hin hd => exact ⟨hnodup, by simpa [hin, State.goCall] using hsent⟩
  | @discarded i hin hc => exact ⟨hnodup, by simpa [hin] using hsent⟩
  | _ => exact ⟨hnodup, hsent⟩

/-! ### The receiver -/

theorem removes_eq (h : c.removes = true) : c = .unregister ∨ ∃ i, c = .closing i .unregister := by
  cases c with
  | closing j d => cases d <;> simp_all [Call.removes]
  | _ => simp_all [Call.removes]

omit [DecidableEq Addr] [DecidableEq γ] in
theorem due_eq (h : y.removed = 0) : y.due = y.releases := by simp [State.due, h]

omit [DecidableEq Addr] [DecidableEq γ] in
theorem removed_zero (h : Released y) (hr : y.releases = false) : y.removed = 0 := by
  by_contra hne
  rw [h.only (by omega)] at hr
  cases hr

omit [DecidableEq Addr] in
/-- The step after which the receiver has to be removed hands that to its
goroutine. -/
theorem Released.hand {c' : Call} (h : Released y) (hr : y.releases = false) (hcalls : y'.calls = y.calls)
    (hrem : y'.removed = y.removed) (hold : (y.calls t).removes = false) (hc : c.removes = true)
    (hc' : c'.removes = false) :
    Released (y'.goCall t (if y'.releases then c else c')) := by
  have hzero := removed_zero h hr
  have hbase : Claimed false fun x => (y'.calls x).removes = true := by
    have := h.claimed
    rw [due_eq hzero, hr] at this
    rw [hcalls]
    exact this
  refine ⟨?_, by simp [State.goCall, hrem, hzero], fun hpos => ?_⟩
  · show Claimed (y'.releases && decide (y'.removed = 0)) _
    rw [hrem, hzero, decide_eq_true rfl, Bool.and_true]
    cases hrel : y'.releases with
    | true =>
      refine hbase.claim (a := t) fun x => ?_
      by_cases hx : x = t
      · subst hx
        simp [State.Removing, State.goCall, hc]
      · simp [State.Removing, State.goCall, hx]
    | false => exact claimed_keep (P := fun c => c.removes = true) hbase (by simp [hc', hcalls, hold])
  · simp [State.goCall, hrem, hzero] at hpos

omit [DecidableEq Addr] in
theorem Released.removes (h : Released y) (hold : (y.calls t).removes = true) (hc : c.removes = false) :
    Released ({ y with removed := y.removed + 1 }.goCall t c) := by
  have hdue := h.claimed.flag_eq hold
  obtain ⟨hrel, hzero⟩ : y.releases = true ∧ y.removed = 0 := by simpa [State.due] using hdue
  refine ⟨?_, ?_, fun _ => hrel⟩
  · show Claimed (y.releases && decide (y.removed + 1 = 0)) _
    rw [decide_eq_false (by omega), Bool.and_false]
    refine h.claimed.release hold fun x => ?_
    by_cases hx : x = t
    · subst hx
      simp [State.Removing, State.goCall, hc]
    · simp [State.Removing, State.goCall, hx]
  · show y.removed + 1 ≤ 1
    omega

omit [DecidableEq Addr] in
theorem Released.keep (h : Released y) (hold : (y.calls t).removes = false) (hc : c.removes = false) :
    Released (y.goCall t c) :=
  ⟨claimed_keep (P := fun c => c.removes = true) h.claimed (by simp [hold, hc]), h.once, h.only⟩

theorem released_step (h : Inv y) (hs : Step y l y') : Released y' := by
  have hr := h.released
  cases hs with
  | @evict addr o i hin ha =>
    have hidle : y.calls none = .idle := by simpa [Placed, hin] using h.placed
    have hy : Released ({ y with input := .evict addr o.conv i } : State Addr γ) := ⟨hr.1, hr.2, hr.3⟩
    exact hy.keep (by simp [hidle, Call.removes]) rfl
  | @late i hin hd =>
    obtain ⟨hidle, -⟩ := h.placed.made hin
    have hy : Released ({ y with input := .discard i } : State Addr γ) := ⟨hr.1, hr.2, hr.3⟩
    exact hy.keep (by simp [hidle, Call.removes]) rfl
  | @register i m hin hd hm =>
    have hrel : y.releases = false := by simp [State.releases, hd]
    have hzero := removed_zero hr hrel
    refine ⟨?_, hr.once, fun hpos => ?_⟩
    · have hcl := hr.claimed
      rw [due_eq hzero, hrel] at hcl
      show Claimed (y.die && _ && _ && _) _
      rw [hd]
      exact hcl
    · rw [show y.removed = 0 from hzero] at hpos
      cases hpos
  | @close t i hc hi => exact hr.keep (by simp [hc, Call.removes]) rfl
  | @closeListener t hc hd =>
    exact hr.hand (by simp [State.releases, hd]) rfl rfl (by simp [hc, Call.removes]) rfl rfl
  | @first t i hc ho =>
    have hy : Released (y.setOnce i .running) := ⟨hr.1, hr.2, hr.3⟩
    exact hy.keep (by simp [State.setOnce, hc, Call.removes]) rfl
  | @again t i hc ho =>
    have hy : Released ({ y with returned := i :: y.returned } : State Addr γ) := ⟨hr.1, hr.2, hr.3⟩
    exact hy.keep (by simp [hc, Call.removes]) rfl
  | @missed t i m hc hm ha =>
    have hy : Released (y.setOnce i .detached) := ⟨hr.1, hr.2, hr.3⟩
    exact hy.keep (by simp [State.setOnce, hc, Call.removes]) rfl
  | @detach t i j m hc hm ha =>
    have hrel : y.releases = false := by
      have hmem : m.1 ∈ y.sessions.keys := AList.lookup_isSome.mp (by rw [ha]; rfl)
      have hne : y.sessions.keys ≠ [] := List.ne_nil_of_mem hmem
      simp [State.releases, State.empty, hne]
    rw [apply_ite (Call.closing i)]
    exact hr.hand hrel rfl rfl (by simp [hc, Call.removes]) rfl rfl
  | @removeL t hc => exact hr.removes (by simp [hc, Call.removes]) rfl
  | @remove t i hc => exact hr.removes (by simp [hc, Call.removes]) rfl
  | @leave t i hc =>
    have hy : Released ({ y with returned := i :: y.returned }.setOnce i .finished) := ⟨hr.1, hr.2, hr.3⟩
    exact hy.keep (by simp [State.setOnce, hc, Call.removes]) rfl
  | _ => exact ⟨hr.1, hr.2, hr.3⟩

theorem Inv.step (h : Inv y) (hs : Step y l y') : Inv y' :=
  ⟨tabled_step h hs, called_step h hs, placed_step h hs, sent_step h hs, released_step h hs⟩

theorem inv_of_reachable {pusher : Bool} (h : (lts Addr γ pusher).Reachable y) : Inv y := by
  have hind : (lts Addr γ pusher).Inductive Inv := by
    refine ⟨fun y hy => ?_, fun _ _ _ h hs => h.step (step_of_next hs)⟩
    replace hy : y = initial pusher := hy
    rw [hy]
    exact inv_initial pusher
  exact hind.reachable y h

/-! ## Safety of every interleaving -/

/-- An entry goes only when its own session closes. -/
theorem Inv.entry_step (h : Inv y) (hs : Step y l y') {a : Addr} {j : Nat} (ha : y.sessions.lookup a = some j) :
    y'.sessions.lookup a = some j ∨ ∃ t, l = .go t ∧ y.calls t = .closing j .body := by
  cases hs with
  | @register i m hin hd hm =>
    obtain ⟨-, -, -, -, b, hb, hnone⟩ := h.placed.made hin
    rw [addrOf_get hm] at hb
    cases hb
    have hne : a ≠ m.1 := by
      intro hne
      rw [← hne, ha] at hnone
      cases hnone
    exact .inl ((AList.lookup_insert_ne hne).trans ha)
  | @detach t i k m hc hm hk =>
    obtain ⟨rfl, -⟩ := h.entry hc hm hk
    by_cases hb : a = m.1
    · subst hb
      cases hk.symm.trans ha
      exact .inr ⟨t, rfl, hc⟩
    · exact .inl ((AList.lookup_erase_ne hb).trans ha)
  | _ => exact .inl ha

/-- A closed listener stays closed and takes no session. -/
theorem closed_step (hs : Step y l y') (hdie : y.die = true) :
    y'.die = true ∧ y'.registered = y.registered ∧ ∀ a j, y'.sessions.lookup a = some j →
      y.sessions.lookup a = some j := by
  cases hs with
  | @register i m hin hd hm =>
    rw [hdie] at hd
    cases hd
  | @closeListener t hc hd =>
    rw [hdie] at hd
    cases hd
  | @detach t i k m hc hm hk =>
    refine ⟨hdie, rfl, fun a j ha => ?_⟩
    replace ha : (y.sessions.erase m.1).lookup a = some j := ha
    by_cases hb : a = m.1
    · subst hb
      simp [AList.lookup_erase] at ha
    · rwa [AList.lookup_erase_ne hb] at ha
  | _ => exact ⟨hdie, rfl, fun _ _ ha => ha⟩

/-- Who is about to remove the receiver can, ... -/
theorem removing_enabled (ht : y.Removing t) : ∃ y', next y (.go t) = some y' ∧ y'.removed = y.removed + 1 := by
  rcases removes_eq ht with hc | ⟨i, hc⟩
  · exact ⟨_, by simp only [next, State.go, hc]; rfl, rfl⟩
  · exact ⟨_, by simp only [next, State.go, hc]; rfl, rfl⟩

/-- ... and stays so until it does. -/
theorem Inv.removing_step (h : Inv y) (hs : Step y l y') (ht : y.Removing t) :
    l = .go t ∨ y'.Removing t := by
  -- a goroutine whose call another step sets was idle
  have hkeep : ∀ x c, x ≠ t → (Function.update y.calls x c t).removes = true := by
    intro x c hx
    rw [Function.update_of_ne (Ne.symm hx)]
    exact ht
  have hidle : ∀ x, y.calls x = .idle → x ≠ t := by
    intro x hx hxt
    subst hxt
    simp [State.Removing, hx, Call.removes] at ht
  have hgo : ∀ x c, Label.go x = (.go t : Label Addr γ) ∨ (Function.update y.calls x c t).removes = true := by
    intro x c
    by_cases hx : x = t
    · exact .inl (by rw [hx])
    · exact .inr (hkeep x c hx)
  cases hs with
  | @evict addr o i hin ha =>
    have hnone : y.calls none = .idle := by simpa [Placed, hin] using h.placed
    exact .inr (hkeep _ _ (hidle _ hnone))
  | @late i hin hd => exact .inr (hkeep _ _ (hidle _ (h.placed.made hin).1))
  | @close t' i hc hi => exact .inr (hkeep _ _ (hidle _ hc))
  | @closeListener t' hc hd => exact .inr (hkeep _ _ (hidle _ hc))
  | @first x i hc ho => exact hgo x _
  | @again x i hc ho => exact hgo x _
  | @missed x i m hc hm ha => exact hgo x _
  | @detach x i j m hc hm ha => exact hgo x _
  | @removeL x hc => exact hgo x _
  | @remove x i hc => exact hgo x _
  | @leave x i hc => exact hgo x _
  | _ => exact .inr ht

/-- In `.send` the channel has room: only `packetInput` fills it. -/
theorem Inv.send_enabled (h : Inv y) (hin : y.input = .send i) :
    ∃ y', next y .input = some y' ∧ y'.chAccepts = y.chAccepts ++ [i] ∧ y'.sent = y.sent ++ [i] := by
  have hroom : y.chAccepts.length < acceptBacklog := by
    have := h.placed
    simp only [Placed, hin] at this
    exact this.2
  exact ⟨_, by simp only [next, State.nextInput, hin, if_pos hroom]; rfl, rfl, rfl⟩

end

/-- **The session table.** In every state that `packetInput`, any calls of
`UDPSession.Close` and of `Listener.Close` can reach together: an entry is
under its own address; a session whose `Close` has returned is not in the
table, and an entry goes only in its own `Close`; what was registered has been
sent once, but for the one that is being sent, which has room; a closed
listener takes no session; and the receiver is removed at most once, only from
a closed listener with an empty table, and then by a goroutine that nothing
holds up. -/
theorem session_table (pusher : Bool) (y : State Addr γ) (hr : (lts Addr γ pusher).Reachable y) :
    (∀ a i, y.sessions.lookup a = some i → y.addrOf i = some a) ∧
    (∀ i ∈ y.returned, ∀ a, y.sessions.lookup a ≠ some i) ∧
    (∀ l y' a j, next y l = some y' → y.sessions.lookup a = some j → y'.sessions.lookup a ≠ some j →
      ∃ t, l = .go t ∧ y.calls t = .closing j .body) ∧
    (∀ a i, y.sessions.lookup a = some i → i ∈ y.registered) ∧ y.registered.Nodup ∧
    (y.registered = y.sent ∨ ∃ i, y.input = .send i ∧ y.registered = y.sent ++ [i] ∧
      ∃ y', next y .input = some y' ∧ y'.chAccepts = y.chAccepts ++ [i] ∧ y'.sent = y.sent ++ [i]) ∧
    (y.die = true → ∀ l y', next y l = some y' → y'.die = true ∧ y'.registered = y.registered ∧
      ∀ a j, y'.sessions.lookup a = some j → y.sessions.lookup a = some j) ∧
    y.removed ≤ 1 ∧ (0 < y.removed → y.die = true ∧ y.empty = true) ∧
    (y.pusher = true → y.die = true → y.empty = true → y.removed = 1 ∨ ∃ t,
      (∃ y', next y (.go t) = some y' ∧ y'.removed = 1) ∧
      ∀ l y', next y l = some y' → l = .go t ∨ y'.Removing t) := by
  have h := inv_of_reachable hr
  refine ⟨fun a i ha => ((h.tabled.table a i).mp ha).2.2, fun i hi a ha => ?_, fun l y' a j hn ha hgone => ?_,
    fun a i ha => ((h.tabled.table a i).mp ha).1, h.sent.nodup, ?_,
    fun hd l y' hn => closed_step (step_of_next hn) hd, h.released.once, fun hpos => ?_, fun hp hd he => ?_⟩
  · have hlive := ((h.tabled.table a i).mp ha).2.1
    rw [h.called.returned i hi] at hlive
    cases hlive
  · exact (h.entry_step (step_of_next hn) ha).resolve_left hgone
  · have hsent := h.sent.sent
    cases hin : y.input with
    | send i =>
      rw [hin] at hsent
      exact .inr ⟨i, rfl, hsent, h.send_enabled hin⟩
    | _ => exact .inl (by simpa [hin] using hsent)
  · have hrel := h.released.only hpos
    simp only [State.releases, Bool.and_eq_true] at hrel
    exact hrel.1
  · have honce := h.released.once
    by_cases hone : y.removed = 1
    · exact .inl hone
    · have hzero : y.removed = 0 := by omega
      have hdue : y.due = true := by simp [State.due, State.releases, hp, hd, he, hzero]
      obtain ⟨t, ht⟩ := h.released.claimed.held.mp hdue
      obtain ⟨y', hn, hrem⟩ := removing_enabled ht
      exact .inr ⟨t, ⟨y', hn, by rw [hrem, hzero]⟩, fun l y' hn => h.removing_step (step_of_next hn) ht⟩

/-- One session comes, is accepted and closed while the listener closes. -/
def lastSession : List (Label Nat Bool) :=
  [.lookup 1 ⟨true, 7, 0⟩, .input, .input, .input, .accept, .close false 0, .go (some false), .closeListener true,
    .go (some false), .go (some false), .go (some false)]

theorem session_table_last : ∃ y : State Nat Bool, (lts Nat Bool true).Reachable y ∧ y.sent = [0] ∧ y.returned = [0] ∧
    y.removed = 1 ∧ ∀ a, y.sessions.lookup a ≠ some 0 := by
  have hplay : ∃ y : State Nat Bool, LTS.play next (fun _ _ => true) (initial true) lastSession = some y ∧
    y.sent = [0] ∧
      y.returned = [0] ∧ y.removed = 1 := ⟨_, rfl, rfl, rfl, rfl⟩
  obtain ⟨y, hy, hsent, hret, hrem⟩ := hplay
  have hr : (lts Nat Bool true).Reachable y := ⟨_, lastSession, rfl, LTS.play_run (fun _ _ _ _ hn => hn) hy⟩
  refine ⟨y, hr, hsent, hret, hrem, ?_⟩
  obtain ⟨-, hclosed, -⟩ := session_table true y hr
  exact hclosed 0 (by simp [hret])

end KcpGo.L5.Listening
