import KcpGo.L4Session.Listener
import KcpGo.L4Session.SessionFrame
import KcpGo.L4Session.SessionSpec

/-!
# What a packet does to a listener

* `Listener.Inv`: every session is in order, and the table holds open
  sessions, each under its own address.
* `dispatch_spec`: a packet returns, keeps that, and does one of four things
  (`Outcome`): it is fed to the session of its address, it is ignored, it is
  offered as a new session, or it first closes the session of its address.
* `step_ok`: every call on the listener or on one of its sessions returns.
-/
namespace KcpGo.L4

open KcpGo.L1 KcpGo.L2

theorem origin_ok {p : Bytes} (h : Session.minPacketSize ≤ p.length) : ∃ o, origin p = .ok o := by
  have h12 : 12 ≤ p.length := h
  unfold origin
  rw [if_neg (by omega)]
  split
  · split <;> exact ⟨_, rfl⟩
  split
  · exact ⟨_, rfl⟩
  split
  · rw [if_neg (by unfold fecHeaderSizePlus2 convSize; omega)]
    exact ⟨_, rfl⟩
  · split <;> exact ⟨_, rfl⟩

namespace Listener

variable {Addr : Type} [DecidableEq Addr]

structure Inv (lib : Lib) (l : Listener Addr) : Prop where
  block : l.block.Lawful
  accepts : (IKCP_OVERHEAD : Int) < Session.firstMtu lib l.dataShards l.parityShards l.block
  heap : ∀ c ∈ l.heap, c.sess.Inv lib
  table : ∀ addr i, l.sessions.lookup addr = some i → ∃ c, l.heap[i]? = some c ∧ c.remote = addr ∧ c.sess.die = false

/-- The listener with one session more. -/
def grow (l : Listener Addr) (c : Conn Addr) : Listener Addr := { l with heap := l.heap ++ [c] }

/-- The listener with the session `i` replaced. -/
def put (l : Listener Addr) (i : Nat) (c : Conn Addr) : Listener Addr := { l with heap := l.heap.set i c }

/-- What becomes of a packet that is offered as a new session. -/
inductive Admission (lib : Lib) (l : Listener Addr) (o : Origin) (p : Bytes) (addr : Addr) :
    Listener Addr → List (Nat × Reached) → Prop where
  | refused (h : o.hasConv = false ∨ acceptBacklog ≤ l.chAccepts.length) : Admission lib l o p addr l []
  | made {s₀ s : Session} {clks : Nat → Clock} {got : List Reached} (hconv : o.hasConv = true)
      (hroom : l.chAccepts.length < acceptBacklog)
      (hnew : Session.new lib o.conv l.dataShards l.parityShards l.block = .ok s₀)
      (hin : s₀.kcpInput lib p clks = .ok (s, got)) (hd : l.die = false) :
      Admission lib l o p addr
        { l.grow ⟨addr, s⟩ with sessions := l.sessions.insert addr l.heap.length
                                chAccepts := l.chAccepts ++ [l.heap.length] }
        (got.map fun r => (l.heap.length, r))
  | late {s : Session} {got : List (Nat × Reached)} (hconv : o.hasConv = true) (hd : l.die = true) (hs : s.die = true) :
      Admission lib l o p addr ((l.grow ⟨addr, s⟩).closeSession addr) got

/-- What becomes of a packet. -/
inductive Outcome (lib : Lib) (l : Listener Addr) (o : Origin) (p : Bytes) (addr : Addr) :
    Listener Addr → List (Nat × Reached) → Prop where
  | fed {i : Nat} {c : Conn Addr} {s : Session} {clks : Nat → Clock} {got : List Reached}
      (hi : l.sessions.lookup addr = some i) (hc : l.heap[i]? = some c)
      (hconv : o.hasConv = false ∨ o.conv = c.sess.kcp.conv) (hin : c.sess.kcpInput lib p clks = .ok (s, got)) :
      Outcome lib l o p addr (l.put i { c with sess := s }) (got.map fun r => (i, r))
  | ignored {i : Nat} {c : Conn Addr} (hi : l.sessions.lookup addr = some i) (hc : l.heap[i]? = some c)
      (hconv : o.hasConv = true ∧ o.conv ≠ c.sess.kcp.conv) (hsn : o.sn ≠ 0) : Outcome lib l o p addr l []
  | offered {l' : Listener Addr} {got : List (Nat × Reached)} (hi : l.sessions.lookup addr = none)
      (ha : Admission lib l o p addr l' got) : Outcome lib l o p addr l' got
  | evicted {i : Nat} {c : Conn Addr} {s : Session} {l' : Listener Addr} {got : List (Nat × Reached)}
      (hi : l.sessions.lookup addr = some i) (hc : l.heap[i]? = some c)
      (hconv : o.hasConv = true ∧ o.conv ≠ c.sess.kcp.conv) (hsn : o.sn = 0) (hs : s.die = true)
      (ha : Admission lib ((l.put i ⟨addr, s⟩).closeSession addr) o p addr l' got) : Outcome lib l o p addr l' got

/-- A decrypted packet is dropped, or names a conversation and is dispatched. -/
inductive Handled (lib : Lib) (l : Listener Addr) (p : Bytes) (addr : Addr) :
    Listener Addr → List (Nat × Reached) → Prop where
  | dropped (h : p.length < Session.minPacketSize ∨ origin p = .ok none) : Handled lib l p addr l []
  | dispatched {o : Origin} {l' : Listener Addr} {got : List (Nat × Reached)} (hmin : Session.minPacketSize ≤ p.length)
      (ho : origin p = .ok (some o)) (hout : Outcome lib l o p addr l' got) : Handled lib l p addr l' got

section
variable {lib : Lib} {l : Listener Addr} {addr : Addr}
variable {c : Conn Addr} {i : Nat}

/-! ## Parts of a step -/

@[simp] theorem lookup_closeSession_self (l : Listener Addr) (addr : Addr) :
    (l.closeSession addr).sessions.lookup addr = none :=
  AList.lookup_erase addr l.sessions

theorem lookup_closeSession_ne {a : Addr} (h : a ≠ addr) :
    (l.closeSession addr).sessions.lookup a = l.sessions.lookup a :=
  AList.lookup_erase_ne h

omit [DecidableEq Addr] in
theorem getElem?_grow_old {x : Conn Addr} (h : l.heap[i]? = some x) :
    (l.grow c).heap[i]? = some x := by
  have hi : i < l.heap.length := (List.getElem?_eq_some_iff.mp h).1
  exact (List.getElem?_append_left hi).trans h

omit [DecidableEq Addr] in
theorem getElem?_grow_new (l : Listener Addr) (c : Conn Addr) : (l.grow c).heap[l.heap.length]? = some c := by
  simp [grow]

omit [DecidableEq Addr] in
theorem getElem?_put_self (h : l.heap[i]? = some c) (c' : Conn Addr) :
    (l.put i c').heap[i]? = some c' :=
  List.getElem?_set_self (List.getElem?_eq_some_iff.mp h).1

omit [DecidableEq Addr] in
theorem getElem?_put_ne {j : Nat} (h : i ≠ j) (c : Conn Addr) : (l.put i c).heap[j]? = l.heap[j]? :=
  List.getElem?_set_ne h

theorem Inv.at (h : Inv lib l) (hc : l.heap[i]? = some c) : c.sess.Inv lib :=
  h.heap c (List.mem_of_getElem? hc)

/-- A session changes but stays open, or was not registered. -/
theorem Inv.put (h : Inv lib l) (hc : l.heap[i]? = some c) {s : Session} (hs : s.Inv lib)
    (hd : s.die = c.sess.die) : Inv lib (l.put i { c with sess := s }) := by
  refine ⟨h.block, h.accepts, fun x hx => ?_, fun a j hj => ?_⟩
  · rcases List.mem_or_eq_of_mem_set hx with hx | rfl
    · exact h.heap x hx
    · exact hs
  · obtain ⟨c', hc', hr, hopen⟩ := h.table a j hj
    by_cases hji : i = j
    · subst hji
      rw [hc] at hc'
      cases hc'
      exact ⟨_, getElem?_put_self hc _, hr, hd.trans hopen⟩
    · exact ⟨c', (getElem?_put_ne hji _).trans hc', hr, hopen⟩

/-- An open session is closed and leaves the table. -/
theorem Inv.closed (h : Inv lib l) (hc : l.heap[i]? = some c) {s : Session} (hs : s.Inv lib) :
    Inv lib ((l.put i { c with sess := s }).closeSession c.remote) := by
  refine ⟨h.block, h.accepts, fun x hx => ?_, fun a j hj => ?_⟩
  · rcases List.mem_or_eq_of_mem_set hx with hx | rfl
    · exact h.heap x hx
    · exact hs
  · have hne : a ≠ c.remote := by
      rintro rfl
      rw [lookup_closeSession_self] at hj
      cases hj
    rw [lookup_closeSession_ne hne] at hj
    obtain ⟨c', hc', hr, hopen⟩ := h.table a j hj
    -- the session `i` has another address
    have hij : i ≠ j := by
      rintro rfl
      rw [hc] at hc'
      cases hc'
      exact hne hr.symm
    exact ⟨c', (getElem?_put_ne hij _).trans hc', hr, hopen⟩

theorem Inv.grow (h : Inv lib l) (hc : c.sess.Inv lib) : Inv lib (l.grow c) := by
  refine ⟨h.block, h.accepts, fun x hx => ?_, fun a j hj => ?_⟩
  · rcases List.mem_append.mp hx with hx | hx
    · exact h.heap x hx
    · rw [List.mem_singleton.mp hx]
      exact hc
  · obtain ⟨c', hc', hr⟩ := h.table a j hj
    exact ⟨c', getElem?_grow_old hc', hr⟩

/-- An open session is registered under its address. -/
theorem Inv.register (h : Inv lib l) (hc : l.heap[i]? = some c) (hd : c.sess.die = false) :
    Inv lib { l with sessions := l.sessions.insert c.remote i } := by
  refine ⟨h.block, h.accepts, h.heap, fun a j hj => ?_⟩
  by_cases ha : a = c.remote
  · subst ha
    rw [show (AList.insert c.remote i l.sessions).lookup c.remote = some i from AList.lookup_insert _] at hj
    cases hj
    exact ⟨c, hc, rfl, hd⟩
  · rw [show (AList.insert c.remote i l.sessions).lookup a = l.sessions.lookup a from AList.lookup_insert_ne ha] at hj
    exact h.table a j hj

/-- `Close` on an open session. -/
theorem closeAt_spec (h : Inv lib l) (hc : l.heap[i]? = some c) (hd : c.sess.die = false)
    (clk : Clock) : ∃ s, l.closeAt i clk = .ok ((l.put i { c with sess := s }).closeSession c.remote) ∧ s.die = true ∧
      Inv lib ((l.put i { c with sess := s }).closeSession c.remote) := by
  obtain ⟨s, hs, hinv⟩ := Session.close_ok (h.at hc) clk
  refine ⟨s, ?_, (Session.close_closes hs).2, h.closed hc hinv⟩
  unfold closeAt
  rw [hc]
  dsimp only
  rw [if_neg (by simp [hd]), hs]
  rfl

omit [DecidableEq Addr] in
theorem put_grow_new (c c' : Conn Addr) : (l.grow c).put l.heap.length c' = l.grow c' := by
  simp [Listener.put, Listener.grow]

theorem Admission.block {l' : Listener Addr} {o : Origin} {p : Bytes} {got : List (Nat × Reached)}
    (h : Admission lib l o p addr l' got) : l'.block = l.block := by
  cases h <;> rfl

theorem Handled.block {l' : Listener Addr} {p : Bytes} {got : List (Nat × Reached)} (h : Handled lib l p addr l' got) :
    l'.block = l.block := by
  cases h with
  | dropped => rfl
  | dispatched _ _ hout =>
    cases hout with
    | fed => rfl
    | ignored => rfl
    | offered _ ha => exact ha.block
    | evicted _ _ _ _ _ ha => exact ha.block

variable (hlib : Documented lib)
include hlib

/-! ## A packet -/

/-- A packet for an address without a session. -/
theorem offer_spec (h : Inv lib l) (addr : Addr) {o : Origin} {p : Bytes} (hmin : Session.minPacketSize ≤ p.length)
    (hmax : p.length ≤ maxPacketSize) (clks : Nat → Clock) :
    ∃ l' got, l.offer lib o p addr clks = .ok (l', got) ∧ Inv lib l' ∧ Admission lib l o p addr l' got := by
  unfold offer
  by_cases hconv : o.hasConv = false
  · exact ⟨l, [], if_pos hconv, h, .refused (.inl hconv)⟩
  rw [if_neg hconv]
  by_cases hfull : acceptBacklog ≤ l.chAccepts.length
  · exact ⟨l, [], if_pos hfull, h, .refused (.inr hfull)⟩
  rw [if_neg hfull]
  have hconv : o.hasConv = true := by simpa using hconv
  obtain ⟨s₀, hnew⟩ := (@Session.new_ok_iff lib o.conv _ _ _).mpr h.accepts
  obtain ⟨hinv₀, -, -, hopen₀⟩ := Session.new_inv hlib.sized h.block hnew
  obtain ⟨s, got, hin, hinv⟩ := Session.kcpInput_ok hlib hinv₀ hmin hmax (fun i => clks (i + 1))
  have hopen : s.die = false := (Session.kcpInput_keeps hin).die.trans hopen₀
  have hgrow : Inv lib (l.grow ⟨addr, s⟩) := h.grow hinv
  rw [hnew, Go.ok_bind, hin, Go.ok_bind]
  dsimp only
  by_cases hd : l.die = true
  · obtain ⟨s', hclose, hdie, hinv'⟩ := closeAt_spec hgrow (getElem?_grow_new l ⟨addr, s⟩) hopen (clks 0)
    rw [put_grow_new] at hclose hinv'
    refine ⟨_, got.map fun r => (l.heap.length, r), ?_, hinv', .late hconv hd hdie⟩
    rw [if_pos hd]
    show ((l.grow ⟨addr, s⟩).closeAt l.heap.length (clks 0) >>= _) = _
    rw [hclose]
    rfl
  · refine ⟨_, _, if_neg hd, ?_, .made hconv (Nat.not_le.mp hfull) hnew hin (by simpa using hd)⟩
    exact { hgrow.register (getElem?_grow_new l ⟨addr, s⟩) hopen with }

/-- **A packet returns**, and one of four things has happened. -/
theorem dispatch_spec (h : Inv lib l) (addr : Addr) {o : Origin} {p : Bytes} (hmin : Session.minPacketSize ≤ p.length)
    (hmax : p.length ≤ maxPacketSize) (clks : Nat → Clock) :
    ∃ l' got, l.dispatch lib o p addr clks = .ok (l', got) ∧ Inv lib l' ∧ Outcome lib l o p addr l' got := by
  unfold dispatch
  cases hi : l.sessions.lookup addr with
  | none =>
    obtain ⟨l', got, hadm, hinv, ha⟩ := offer_spec hlib h addr hmin hmax clks
    exact ⟨l', got, hadm, hinv, .offered hi ha⟩
  | some i =>
    obtain ⟨c, hc, hr, hopen⟩ := h.table addr i hi
    dsimp only
    rw [hc]
    dsimp only
    by_cases hconv : o.hasConv = false ∨ o.conv = c.sess.kcp.conv
    · obtain ⟨s, got, hin, hinv⟩ := Session.kcpInput_ok hlib (h.at hc) hmin hmax clks
      refine ⟨_, _, ?_, h.put hc hinv (Session.kcpInput_keeps hin).die, .fed hi hc hconv hin⟩
      rw [if_pos hconv, hin]
      rfl
    rw [if_neg hconv]
    have hconv' : o.hasConv = true ∧ o.conv ≠ c.sess.kcp.conv := by
      simpa only [not_or, Bool.not_eq_false] using hconv
    by_cases hsn : o.sn = 0
    · obtain ⟨s, hclose, hdie, hinv⟩ := closeAt_spec h hc hopen (clks 0)
      subst hr
      obtain ⟨l', got, hadm, hinv', ha⟩ := offer_spec hlib hinv c.remote (o := o) hmin hmax (fun i => clks (i + 1))
      refine ⟨l', got, ?_, hinv', .evicted hi hc hconv' hsn hdie ha⟩
      rw [if_neg (by simp [hsn]), hclose]
      exact hadm
    · exact ⟨l, [], if_pos hsn, h, .ignored hi hc hconv' hsn⟩

theorem decrypted_spec (h : Inv lib l) (addr : Addr) {p : Bytes}
    (hmax : p.length ≤ maxPacketSize) (clks : Nat → Clock) :
    ∃ l' got, l.decrypted lib p addr clks = .ok (l', got) ∧ Inv lib l' ∧ Handled lib l p addr l' got := by
  unfold decrypted
  by_cases hmin : p.length < Session.minPacketSize
  · exact ⟨l, [], if_pos hmin, h, .dropped (.inl hmin)⟩
  rw [if_neg hmin]
  have hmin := Nat.not_lt.mp hmin
  obtain ⟨r, hr⟩ := origin_ok hmin
  rw [hr, Go.ok_bind]
  cases r with
  | none => exact ⟨l, [], rfl, h, .dropped (.inr hr)⟩
  | some o =>
    obtain ⟨l', got, hd, hinv, ho⟩ := dispatch_spec hlib h addr (o := o) hmin hmax clks
    exact ⟨l', got, hd, hinv, .dispatched hmin hr ho⟩

theorem packetInput_ok (h : Inv lib l) (addr : Addr) {data : Bytes}
    (hd : data.length ≤ maxPacketSize) (clks : Nat → Clock) :
    ∃ l' got, l.packetInput lib data addr clks = .ok (l', got) ∧ Inv lib l' ∧ l'.block = l.block := by
  obtain ⟨r, hr, hle⟩ := Session.unframe_ok h.block data
  unfold packetInput
  rw [hr, Go.ok_bind]
  cases r with
  | none => exact ⟨l, [], rfl, h, rfl⟩
  | some p =>
    obtain ⟨l', got, hp, hinv, hh⟩ := decrypted_spec hlib h addr (Nat.le_trans (hle p rfl) hd) clks
    exact ⟨l', got, hp, hinv, hh.block⟩

/-! ## Every call -/

/-- A call on a session of the listener. -/
theorem callAt_ok (h : Inv lib l) (hc : l.heap[i]? = some c) {call : Session.Call}
    (ha : c.sess.Admissible call) : ∃ l' out, l.callAt lib i call = .ok (l', out) ∧ Inv lib l' ∧ l'.block = l.block ∧
      ∀ d ∈ out, d.length ≤ maxPacketSize := by
  by_cases hclose : ∃ clk, call = .close clk
  · obtain ⟨clk, rfl⟩ := hclose
    unfold callAt
    rw [hc]
    dsimp only
    by_cases hd : c.sess.die = true
    · refine ⟨l, [], ?_, h, rfl, by simp⟩
      rw [closeAt, hc]
      dsimp only
      rw [if_pos hd]
      rfl
    · obtain ⟨s, hs, -, hinv⟩ := closeAt_spec h hc (by simpa using hd) clk
      exact ⟨_, [], by rw [hs]; rfl, hinv, rfl, by simp⟩
  · have hne : ∀ clk, call ≠ .close clk := fun clk heq => hclose ⟨clk, heq⟩
    obtain ⟨s, o, hs, hinv, hout⟩ := Session.step_ok hlib (h.at hc) ha
    refine ⟨l.put i { c with sess := s }, o.datagrams, ?_, h.put hc hinv (Session.step_stays hne hs).die, rfl, hout⟩
    unfold callAt
    rw [hc]
    cases call with
    | close clk => exact absurd rfl (hne clk)
    | _ => dsimp only; rw [hs]; rfl

omit hlib

/-- A datagram fits its buffer, and calls are on sessions that exist. -/
def Admissible (l : Listener Addr) : Event Addr → Prop
  | .packetInput data _ _ => data.length ≤ maxPacketSize
  | .call i call => ∃ c, l.heap[i]? = some c ∧ c.sess.Admissible call
  | _ => True

include hlib

/-- **Every call returns.** -/
theorem step_ok (h : Inv lib l) {ev : Event Addr} (ha : l.Admissible ev) : ∃ l' out, l.step lib ev = .ok (l', out) ∧
    Inv lib l' ∧ l'.block = l.block ∧ ∀ d ∈ out, d.length ≤ maxPacketSize := by
  cases ev with
  | packetInput data addr clks =>
    obtain ⟨l', got, hs, hinv, hb⟩ := packetInput_ok hlib h addr ha clks
    exact ⟨l', [], by rw [step, hs]; rfl, hinv, hb, by simp⟩
  | call i call =>
    obtain ⟨c, hc, ha⟩ := ha
    exact callAt_ok hlib h hc ha
  | accept => exact ⟨_, _, rfl, { h with }, rfl, by simp⟩
  | close => exact ⟨_, _, rfl, { h with }, rfl, by simp⟩

omit hlib in
theorem new_inv {block : Block} {ds ps : Nat} (hb : block.Lawful)
    (ha : (IKCP_OVERHEAD : Int) < Session.firstMtu lib ds ps block) : Inv lib (new block ds ps : Listener Addr) :=
  ⟨hb, ha, by simp [new], by simp [new]⟩

end
end Listener
end KcpGo.L4
