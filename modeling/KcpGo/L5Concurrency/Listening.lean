import KcpGo.Core.LTS
import KcpGo.L4Session.Listener
import Mathlib.Logic.Function.Basic

/-!
# A listener, step by step

One goroutine runs `Listener.packetInput`; others call `UDPSession.Close` on
the sessions they know and `Listener.Close`, any number of times. A step is a
critical section under `sessionLock` or `Once.Do`, a channel operation, or a
call of `SetPacketReceiver`.

A session is the number of its creation. Others know it once it is in the
table (`registered`): before that only `packetInput` has it. `Once.Do` blocks
while the first call is still inside. `sent`, `registered`, `returned` and
`removed` record what has happened.

`step_of_next` says once what a step can do.
-/
namespace KcpGo.L5.Listening

open KcpGo.L4

/-- The `dieOnce` of a session; `detached`: its function has called
`closeSession`. -/
inductive Once where
  | idle
  | running
  | detached
  | finished
  deriving DecidableEq

/-- A call of `UDPSession.Close`.
mirrors src/sess.go:523-560 -/
inductive Closing where
  /-- before `dieOnce.Do` -/
  | enter
  /-- inside, before `closeSession` -/
  | body
  /-- `closeSession` returned the pusher -/
  | unregister
  /-- before `Do` returns -/
  | leave
  deriving DecidableEq

/-- What a goroutine is in. -/
inductive Call where
  | idle
  | closing (i : Nat) (c : Closing)
  /-- in `Listener.Close`, with the pusher -/
  | unregister
  deriving DecidableEq

/-- Where `packetInput` is.
mirrors src/sess.go:1285-1368 -/
inductive Input (Addr : Type) where
  | idle
  /-- in `s.Close()`, before it goes on with the new conversation -/
  | evict (addr : Addr) (conv : UInt32) (i : Nat)
  /-- before the check of the backlog -/
  | check (addr : Addr) (conv : UInt32)
  /-- a new session was made and fed -/
  | made (i : Nat)
  /-- registered, before the channel operation -/
  | send (i : Nat)
  /-- in `s.Close()` of a new session, after the listener was closed -/
  | discard (i : Nat)

/-- `none` is the goroutine of `packetInput`. -/
structure State (Addr γ : Type) where
  pusher : Bool
  made : List (Addr × UInt32)
  sessions : Table Addr Nat
  chAccepts : List Nat
  die : Bool
  once : Nat → Once
  input : Input Addr
  calls : Option γ → Call
  registered : List Nat
  sent : List Nat
  returned : List Nat
  removed : Nat

variable {Addr γ : Type} [DecidableEq Addr] [DecidableEq γ]

def initial (pusher : Bool) : State Addr γ where
  pusher := pusher
  made := []
  sessions := ∅
  chAccepts := []
  die := false
  once := fun _ => .idle
  input := .idle
  calls := fun _ => .idle
  registered := []
  sent := []
  returned := []
  removed := 0

namespace State

variable (y : State Addr γ)

def goCall (t : Option γ) (c : Call) : State Addr γ := { y with calls := Function.update y.calls t c }

def setOnce (i : Nat) (o : Once) : State Addr γ := { y with once := Function.update y.once i o }

/-- `len(l.sessions) == 0` -/
def empty : Bool := y.sessions.keys.isEmpty

/-- mirrors src/sess.go:1524-1537 (`releasePusherLocked`) -/
def releases : Bool := y.die && y.empty && y.pusher

/-- The critical section of `closeSession`, and whether it returns the pusher.
mirrors src/sess.go:1506-1519 (`closeSession`) -/
def closeSession (remote : Addr) : State Addr γ × Bool :=
  match y.sessions.lookup remote with
  | none => (y, false)
  | some _ =>
    let y := { y with sessions := y.sessions.erase remote }
    (y, y.releases)

/-- The next step of a call. -/
def go (t : Option γ) : Option (State Addr γ) :=
  match y.calls t with
  | .idle => none
  | .unregister => some ({ y with removed := y.removed + 1 }.goCall t .idle)
  | .closing i .enter =>
    match y.once i with
    | .idle => some ((y.setOnce i .running).goCall t (.closing i .body))
    | .finished => some ({ y with returned := i :: y.returned }.goCall t .idle)
    | _ => none
  | .closing i .body => y.made[i]?.map fun m =>
    let (y, pp) := y.closeSession m.1
    (y.setOnce i .detached).goCall t (.closing i (if pp then .unregister else .leave))
  | .closing i .unregister => some ({ y with removed := y.removed + 1 }.goCall t (.closing i .leave))
  | .closing i .leave => some (({ y with returned := i :: y.returned }.setOnce i .finished).goCall t .idle)

/-- A packet is looked up.
mirrors src/sess.go:1285-1340 -/
def lookup (addr : Addr) (o : Origin) : State Addr γ :=
  match y.sessions.lookup addr with
  | none => if o.hasConv then { y with input := .check addr o.conv } else y
  | some i =>
    if o.hasConv = false ∨ y.made[i]?.map Prod.snd = some o.conv ∨ o.sn ≠ 0 then y
    else { y with input := .evict addr o.conv i }.goCall none (.closing i .enter)

/-- mirrors src/sess.go:1342-1368 -/
def nextInput : Option (State Addr γ) :=
  match y.input with
  | .idle => none
  | .evict addr conv _ => if y.calls none = .idle then some { y with input := .check addr conv } else none
  | .check addr conv =>
    if acceptBacklog ≤ y.chAccepts.length then some { y with input := .idle }
    else some { y with made := y.made ++ [(addr, conv)], input := .made y.made.length }
  | .made i =>
    if y.die then some ({ y with input := .discard i }.goCall none (.closing i .enter))
    else y.made[i]?.map fun m =>
      { y with sessions := y.sessions.insert m.1 i, registered := y.registered ++ [i], input := .send i }
  | .send i =>
    if y.chAccepts.length < acceptBacklog then
      some { y with chAccepts := y.chAccepts ++ [i], sent := y.sent ++ [i], input := .idle }
    else none
  | .discard _ => if y.calls none = .idle then some { y with input := .idle } else none

/-- mirrors src/sess.go:1470-1494 (`Listener.Close`) -/
def closeListener (t : γ) : State Addr γ :=
  if y.die then y
  else
    let y := { y with die := true }
    if y.releases then y.goCall (some t) .unregister else y

end State

/-- `lookup`: `packetInput` takes a packet; `input`: its next step; `close`:
a goroutine calls `Close` on a session it knows; `go`: the next step of a
call. -/
inductive Label (Addr γ : Type) where
  | lookup (addr : Addr) (o : Origin)
  | input
  | close (t : γ) (i : Nat)
  | closeListener (t : γ)
  | go (t : Option γ)
  | accept

def next (y : State Addr γ) : Label Addr γ → Option (State Addr γ)
  | .lookup addr o => match y.input with
    | .idle => some (y.lookup addr o)
    | _ => none
  | .input => y.nextInput
  | .close t i =>
    if y.calls (some t) = .idle ∧ i ∈ y.registered then some (y.goCall (some t) (.closing i .enter)) else none
  | .closeListener t => if y.calls (some t) = .idle then some (y.closeListener t) else none
  | .go t => y.go t
  | .accept => some { y with chAccepts := y.chAccepts.tail }

def lts (Addr γ : Type) [DecidableEq Addr] [DecidableEq γ] (pusher : Bool) : LTS (State Addr γ) (Label Addr γ) :=
  LTS.ofFn (· = initial pusher) next

/-! ## What a step can do -/

/-- The steps, with what is known in each. -/
inductive Step (y : State Addr γ) : Label Addr γ → State Addr γ → Prop where
  | skip (l : Label Addr γ) : Step y l y
  | fresh {addr : Addr} {o : Origin} (hin : y.input = .idle) (ha : y.sessions.lookup addr = none) :
      Step y (.lookup addr o) { y with input := .check addr o.conv }
  | evict {addr : Addr} {o : Origin} {i : Nat} (hin : y.input = .idle) (ha : y.sessions.lookup addr = some i) :
      Step y (.lookup addr o) ({ y with input := .evict addr o.conv i }.goCall none (.closing i .enter))
  | resume {addr : Addr} {conv : UInt32} {i : Nat} (hin : y.input = .evict addr conv i) (hc : y.calls none = .idle) :
      Step y .input { y with input := .check addr conv }
  | refuse {addr : Addr} {conv : UInt32} (hin : y.input = .check addr conv) : Step y .input { y with input := .idle }
  | make {addr : Addr} {conv : UInt32} (hin : y.input = .check addr conv) (hroom : y.chAccepts.length < acceptBacklog) :
      Step y .input { y with made := y.made ++ [(addr, conv)], input := .made y.made.length }
  | late {i : Nat} (hin : y.input = .made i) (hd : y.die = true) :
      Step y .input ({ y with input := .discard i }.goCall none (.closing i .enter))
  | register {i : Nat} {m : Addr × UInt32} (hin : y.input = .made i) (hd : y.die = false) (hm : y.made[i]? = some m) :
      Step y .input
        { y with sessions := y.sessions.insert m.1 i, registered := y.registered ++ [i], input := .send i }
  | send {i : Nat} (hin : y.input = .send i) :
      Step y .input { y with chAccepts := y.chAccepts ++ [i], sent := y.sent ++ [i], input := .idle }
  | discarded {i : Nat} (hin : y.input = .discard i) (hc : y.calls none = .idle) :
    Step y .input { y with input := .idle }
  | close {t : γ} {i : Nat} (hc : y.calls (some t) = .idle) (hi : i ∈ y.registered) :
      Step y (.close t i) (y.goCall (some t) (.closing i .enter))
  | closeListener {t : γ} (hc : y.calls (some t) = .idle) (hd : y.die = false) :
      Step y (.closeListener t) ({ y with die := true }.goCall (some t)
        (if { y with die := true }.releases then .unregister else .idle))
  | first {t : Option γ} {i : Nat} (hc : y.calls t = .closing i .enter) (ho : y.once i = .idle) :
      Step y (.go t) ((y.setOnce i .running).goCall t (.closing i .body))
  | again {t : Option γ} {i : Nat} (hc : y.calls t = .closing i .enter) (ho : y.once i = .finished) :
      Step y (.go t) ({ y with returned := i :: y.returned }.goCall t .idle)
  | missed {t : Option γ} {i : Nat} {m : Addr × UInt32} (hc : y.calls t = .closing i .body) (hm : y.made[i]? = some m)
      (ha : y.sessions.lookup m.1 = none) : Step y (.go t) ((y.setOnce i .detached).goCall t (.closing i .leave))
  | detach {t : Option γ} {i j : Nat} {m : Addr × UInt32} (hc : y.calls t = .closing i .body) (hm : y.made[i]? = some m)
      (ha : y.sessions.lookup m.1 = some j) :
      Step y (.go t) (({ y with sessions := y.sessions.erase m.1 }.setOnce i .detached).goCall t
        (.closing i (if { y with sessions := y.sessions.erase m.1 }.releases then .unregister else .leave)))
  | removeL {t : Option γ} (hc : y.calls t = .unregister) :
      Step y (.go t) ({ y with removed := y.removed + 1 }.goCall t .idle)
  | remove {t : Option γ} {i : Nat} (hc : y.calls t = .closing i .unregister) :
      Step y (.go t) ({ y with removed := y.removed + 1 }.goCall t (.closing i .leave))
  | leave {t : Option γ} {i : Nat} (hc : y.calls t = .closing i .leave) :
      Step y (.go t) (({ y with returned := i :: y.returned }.setOnce i .finished).goCall t .idle)
  | accept : Step y .accept { y with chAccepts := y.chAccepts.tail }

section
variable {y y' : State Addr γ}

omit [DecidableEq Addr] in
theorem goCall_self {t : Option γ} {c : Call} (h : y.calls t = c) : y.goCall t c = y := by
  unfold State.goCall
  rw [← h, Function.update_eq_self]

omit [DecidableEq Addr] [DecidableEq γ] in
theorem setOnce_self {i : Nat} {o : Once} (h : y.once i = o) : y.setOnce i o = y := by
  unfold State.setOnce
  rw [← h, Function.update_eq_self]

theorem step_of_lookup {addr : Addr} {o : Origin} (hin : y.input = .idle) :
    Step y (.lookup addr o) (y.lookup addr o) := by
  unfold State.lookup
  cases ha : y.sessions.lookup addr with
  | none =>
    simp only
    split
    · exact .fresh hin ha
    · exact .skip _
  | some i =>
    simp only
    split
    · exact .skip _
    · exact .evict hin ha

theorem step_of_input (h : y.nextInput = some y') : Step y .input y' := by
  unfold State.nextInput at h
  cases hin : y.input with
  | idle => simp [hin] at h
  | evict addr conv i =>
    simp only [hin, Option.ite_none_right_eq_some, Option.some.injEq] at h
    obtain ⟨hc, rfl⟩ := h
    exact .resume hin hc
  | check addr conv =>
    simp only [hin] at h
    split at h
    · cases h
      exact .refuse hin
    · rename_i hroom
      cases h
      exact .make hin (Nat.not_le.mp hroom)
  | made i =>
    simp only [hin] at h
    split at h
    · rename_i hd
      cases h
      exact .late hin hd
    · rename_i hd
      obtain ⟨m, hm, rfl⟩ := Option.map_eq_some_iff.mp h
      exact .register hin (by simpa using hd) hm
  | send i =>
    simp only [hin, Option.ite_none_right_eq_some, Option.some.injEq] at h
    obtain ⟨-, rfl⟩ := h
    exact .send hin
  | discard i =>
    simp only [hin, Option.ite_none_right_eq_some, Option.some.injEq] at h
    obtain ⟨hc, rfl⟩ := h
    exact .discarded hin hc

theorem step_of_closeListener {t : γ} (hc : y.calls (some t) = .idle) :
    Step y (.closeListener t) (y.closeListener t) := by
  unfold State.closeListener
  split
  · exact .skip _
  · rename_i hd
    have hstep := Step.closeListener hc (by simpa using hd)
    cases hr : ({ y with die := true } : State Addr γ).releases with
    | true => simpa [hr] using hstep
    | false =>
      have hself : ({ y with die := true } : State Addr γ).goCall (some t) .idle = { y with die := true } :=
        goCall_self hc
      rw [if_neg (by simp [hr]), hself] at hstep
      simpa [hr] using hstep

theorem step_of_go {t : Option γ} (h : y.go t = some y') : Step y (.go t) y' := by
  unfold State.go at h
  cases hc : y.calls t with
  | idle => simp [hc] at h
  | unregister =>
    simp only [hc, Option.some.injEq] at h
    subst h
    exact .removeL hc
  | closing i c =>
    cases c with
    | enter =>
      simp only [hc] at h
      cases ho : y.once i with
      | idle =>
        simp only [ho, Option.some.injEq] at h
        subst h
        exact .first hc ho
      | finished =>
        simp only [ho, Option.some.injEq] at h
        subst h
        exact .again hc ho
      | running => simp [ho] at h
      | detached => simp [ho] at h
    | body =>
      simp only [hc] at h
      obtain ⟨m, hm, rfl⟩ := Option.map_eq_some_iff.mp h
      unfold State.closeSession
      cases ha : y.sessions.lookup m.1 with
      | none => exact .missed hc hm ha
      | some j => exact .detach hc hm ha
    | unregister =>
      simp only [hc, Option.some.injEq] at h
      subst h
      exact .remove hc
    | leave =>
      simp only [hc, Option.some.injEq] at h
      subst h
      exact .leave hc

/-- There are no other steps. -/
theorem step_of_next {l : Label Addr γ} (h : next y l = some y') : Step y l y' := by
  cases l with
  | lookup addr o =>
    cases hin : y.input with
    | idle =>
      simp only [next, hin, Option.some.injEq] at h
      subst h
      exact step_of_lookup hin
    | _ => simp [next, hin] at h
  | input => exact step_of_input h
  | close t i =>
    simp only [next, Option.ite_none_right_eq_some, Option.some.injEq] at h
    obtain ⟨⟨hc, hi⟩, rfl⟩ := h
    exact .close hc hi
  | closeListener t =>
    simp only [next, Option.ite_none_right_eq_some, Option.some.injEq] at h
    obtain ⟨hc, rfl⟩ := h
    exact step_of_closeListener hc
  | go t => exact step_of_go h
  | accept =>
    simp only [next, Option.some.injEq] at h
    subst h
    exact .accept

end

end KcpGo.L5.Listening
