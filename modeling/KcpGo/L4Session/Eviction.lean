import KcpGo.L4Session.Totality

/-!
# Replacing a session

A packet with a foreign conversation id and sequence number 0 closes the
session of its address; only then does `packetInput` look whether there is
room for a new one.

* `Handled.closes_iff`: when a packet closes the session of its address.
* `replaces_iff_room`: the session is replaced in the same call exactly when the
  backlog has room (or the listener is closed). `abandoned` is a session
  closed with nothing in its place.
* `evictor_fresh_iff`: the packet that closes a session carries a KCP header with
  sequence number 0 unless it is OOB: an OOB packet has no sequence number,
  and the variable that would hold it is 0. `closed_by_oob` is such a packet.
-/
namespace KcpGo.L4

open KcpGo.L1 KcpGo.L2

namespace Listener

variable {Addr : Type} [DecidableEq Addr]

/-- The packet names another conversation than the session of its address. -/
structure Foreign (l : Listener Addr) (p : Bytes) (addr : Addr) (o : Origin) (i : Nat) (c : Conn Addr) : Prop where
  long : Session.minPacketSize ≤ p.length
  reads : origin p = .ok (some o)
  registered : l.sessions.lookup addr = some i
  sess : l.heap[i]? = some c
  hasConv : o.hasConv = true
  differs : o.conv ≠ c.sess.kcp.conv

/-- The packet closes the session of its address. -/
def Evicts (l : Listener Addr) (p : Bytes) (addr : Addr) : Prop :=
  ∃ o i c, l.Foreign p addr o i c ∧ o.sn = 0

/-- An open session is closed by a call. -/
def Closes (l l' : Listener Addr) (i : Nat) : Prop :=
  ∃ c c', l.heap[i]? = some c ∧ c.sess.die = false ∧ l'.heap[i]? = some c' ∧ c'.sess.die = true

section
variable {lib : Lib} {l l' : Listener Addr} {addr : Addr} {o : Origin} {p : Bytes} {got : List (Nat × Reached)}

/-- A new session leaves the others alone. -/
theorem Admission.old (h : Admission lib l o p addr l' got) {i : Nat} {c : Conn Addr} (hc : l.heap[i]? = some c) :
    l'.heap[i]? = some c := by
  cases h with
  | refused => exact hc
  | made => exact getElem?_grow_old hc
  | late => exact getElem?_grow_old hc

omit [DecidableEq Addr] in
theorem not_closes_self (l : Listener Addr) (i : Nat) : ¬ Closes l l i := by
  rintro ⟨c, c', hc, hopen, hc', hdie⟩
  rw [hc] at hc'
  cases hc'
  rw [hopen] at hdie
  cases hdie

/-- Which packets close, by what became of them. -/
theorem Outcome.closes_iff (h : Inv lib l) (ho : Outcome lib l o p addr l' got) {i : Nat}
    (hi : l.sessions.lookup addr = some i) :
    Closes l l' i ↔ ∃ c, l.heap[i]? = some c ∧ o.hasConv = true ∧ o.conv ≠ c.sess.kcp.conv ∧ o.sn = 0 := by
  obtain ⟨c₀, hc₀, hr, hopen⟩ := h.table addr i hi
  cases ho with
  | @fed j c s clks got hj hc hconv hin =>
    rw [hi] at hj
    cases hj
    refine iff_of_false ?_ ?_
    · rintro ⟨c₁, c', hc₁, hopen₁, hc', hdie⟩
      rw [getElem?_put_self hc] at hc'
      cases hc'
      rw [hc] at hc₁
      cases hc₁
      rw [(Session.kcpInput_keeps hin).die, hopen₁] at hdie
      cases hdie
    · rintro ⟨c₁, hc₁, hhas, hne, -⟩
      rw [hc] at hc₁
      cases hc₁
      rcases hconv with hno | heq
      · rw [hhas] at hno
        cases hno
      · exact hne heq
  | ignored hj hc hconv hsn =>
    exact iff_of_false (not_closes_self l i) fun ⟨_, _, _, _, h0⟩ => hsn h0
  | offered hj =>
    rw [hi] at hj
    cases hj
  | @evicted j c s l' got hj hc hconv hsn hdie ha =>
    rw [hi] at hj
    cases hj
    rw [hc] at hc₀
    cases hc₀
    refine iff_of_true ⟨c₀, ⟨addr, s⟩, hc, hopen, ?_, hdie⟩ ⟨c₀, hc, hconv.1, hconv.2, hsn⟩
    exact ha.old (getElem?_put_self hc _)

/-- **When a packet closes the session of its address.** -/
theorem Handled.closes_iff (h : Inv lib l) (hd : Handled lib l p addr l' got) {i : Nat}
    (hi : l.sessions.lookup addr = some i) : Closes l l' i ↔ l.Evicts p addr := by
  cases hd with
  | dropped hdrop =>
    refine iff_of_false (not_closes_self l i) ?_
    rintro ⟨o, j, c, hf, -⟩
    rcases hdrop with hshort | hnone
    · exact absurd hf.long (Nat.not_le.mpr hshort)
    · rw [hf.reads] at hnone
      cases hnone
  | @dispatched o l' got hmin ho hout =>
    rw [hout.closes_iff h hi]
    constructor
    · rintro ⟨c, hc, hhas, hne, hsn⟩
      exact ⟨o, i, c, ⟨hmin, ho, hi, hc, hhas, hne⟩, hsn⟩
    · rintro ⟨o', j, c, hf, hsn⟩
      have hreads := hf.reads
      rw [ho] at hreads
      cases hreads
      have hreg := hf.registered
      rw [hi] at hreg
      cases hreg
      exact ⟨c, hf.sess, hf.hasConv, hf.differs, hsn⟩

/-! ## Replacement -/

/-- The datagram decrypts to a packet with this conversation id. -/
def Names (l : Listener Addr) (data : Bytes) (conv : UInt32) : Prop :=
  ∃ p o, Session.unframe l.block data = .ok (some p) ∧ origin p = .ok (some o) ∧ o.hasConv = true ∧ o.conv = conv

/-- A new session is registered for the address and waits to be accepted. -/
structure Registered (l l' : Listener Addr) (addr : Addr) (conv : UInt32) : Prop where
  table : l'.sessions.lookup addr = some l.heap.length
  sess : ∃ c, l'.heap[l.heap.length]? = some c ∧ c.remote = addr ∧ c.sess.kcp.conv = conv ∧ c.sess.die = false
  queued : l'.chAccepts = l.chAccepts ++ [l.heap.length]

theorem Registered.of_same {l₁ : Listener Addr} {conv : UInt32} (h : Registered l₁ l' addr conv)
    (hlen : l₁.heap.length = l.heap.length) (hq : l₁.chAccepts = l.chAccepts) : Registered l l' addr conv := by
  obtain ⟨htable, hsess, hqueued⟩ := h
  rw [hlen] at htable hsess hqueued
  rw [hq] at hqueued
  exact ⟨htable, hsess, hqueued⟩

/-- A session that is closed has its successor; without a successor it stays
open and registered. -/
structure Replaces (l l' : Listener Addr) (data : Bytes) (addr : Addr) : Prop where
  successor : ∀ i, l.sessions.lookup addr = some i → Closes l l' i → ∃ conv, l.Names data conv ∧
    Registered l l' addr conv
  kept : (¬ ∃ conv, l.Names data conv ∧ Registered l l' addr conv) → ∀ i, l.sessions.lookup addr = some i →
    l'.sessions.lookup addr = some i ∧ ∃ c, l'.heap[i]? = some c ∧ c.sess.die = false

/-- Nothing happened to the session of the address. -/
theorem replaces_of_kept {data : Bytes} (hclose : ∀ i, l.sessions.lookup addr = some i → ¬ Closes l l' i)
    (hkept : ∀ i, l.sessions.lookup addr = some i → l'.sessions.lookup addr = some i ∧
      ∃ c, l'.heap[i]? = some c ∧ c.sess.die = false) : Replaces l l' data addr :=
  ⟨fun i hi hc => absurd hc (hclose i hi), fun _ => hkept⟩

theorem replaces_of_registered {data : Bytes} {conv : UInt32} (hn : l.Names data conv)
    (hr : Registered l l' addr conv) :
    Replaces l l' data addr :=
  ⟨fun _ _ _ => ⟨conv, hn, hr⟩, fun hno => absurd ⟨conv, hn, hr⟩ hno⟩

variable (hlib : Documented lib)
include hlib

/-- A new session is what the packet asked for. -/
theorem registered_of_made (hb : l.block.Lawful)
    {s₀ s : Session} {clks : Nat → Clock}
    {got : List Reached} (hnew : Session.new lib o.conv l.dataShards l.parityShards l.block = .ok s₀)
    (hin : s₀.kcpInput lib p clks = .ok (s, got)) :
    Registered l { l.grow ⟨addr, s⟩ with sessions := l.sessions.insert addr l.heap.length
                                         chAccepts := l.chAccepts ++ [l.heap.length] } addr o.conv := by
  obtain ⟨-, -, hconv, hopen⟩ := Session.new_inv hlib.sized hb hnew
  have hkeeps := Session.kcpInput_keeps hin
  exact ⟨AList.lookup_insert _, ⟨⟨addr, s⟩, getElem?_grow_new l _, rfl, hkeeps.conv.trans hconv,
    hkeeps.die.trans hopen⟩, rfl⟩

omit hlib in
/-- A packet that closes nothing keeps the session of its address. -/
theorem Outcome.keeps (h : Inv lib l) (hout : Outcome lib l o p addr l' got) {i : Nat}
    (hi : l.sessions.lookup addr = some i)
    (hno : ¬ Closes l l' i) : l'.sessions.lookup addr = some i ∧ ∃ c, l'.heap[i]? = some c ∧ c.sess.die = false := by
  obtain ⟨c₀, hc₀, hr, hopen⟩ := h.table addr i hi
  cases hout with
  | fed hj hc hconv hin =>
    rw [hi] at hj
    cases hj
    rw [hc₀] at hc
    cases hc
    exact ⟨hi, _, getElem?_put_self hc₀ _, (Session.kcpInput_keeps hin).die.trans hopen⟩
  | ignored => exact ⟨hi, c₀, hc₀, hopen⟩
  | offered hj =>
    rw [hi] at hj
    cases hj
  | evicted hj hc hconv hsn hdie ha =>
    rw [hi] at hj
    cases hj
    exact absurd ⟨c₀, _, hc₀, hopen, ha.old (getElem?_put_self hc _), hdie⟩ hno

/-- A session that was closed is replaced when there is room. -/
theorem Outcome.replaced (h : Inv lib l) {data : Bytes} (hdata : Session.unframe l.block data = .ok (some p))
    (ho : origin p = .ok (some o)) (hout : Outcome lib l o p addr l' got) (hopen : l.die = false) {i : Nat}
    (hi : l.sessions.lookup addr = some i) (hcl : Closes l l' i) :
    Replaces l l' data addr ↔ l.chAccepts.length < acceptBacklog := by
  obtain ⟨c, hc, hhas, hne, hsn⟩ := (hout.closes_iff h hi).mp hcl
  cases hout with
  | fed hj hc' hconv hin =>
    rw [hi] at hj
    cases hj
    rw [hc] at hc'
    cases hc'
    rcases hconv with hno | heq
    · rw [hhas] at hno
      cases hno
    · exact absurd heq hne
  | ignored _ _ _ hsn' => exact absurd hsn hsn'
  | offered hj =>
    rw [hi] at hj
    cases hj
  | @evicted j c' s l' got hj hc' hconv _ hdie ha =>
    have hlen : ((l.put j ⟨addr, s⟩).closeSession addr).heap.length = l.heap.length := List.length_set
    cases ha with
    | refused hfull =>
      have hfull : acceptBacklog ≤ l.chAccepts.length := hfull.resolve_left (by simp [hhas])
      refine iff_of_false (fun hrep => ?_) (Nat.not_lt.mpr hfull)
      obtain ⟨conv, -, hreg⟩ := hrep.successor i hi hcl
      have htable := hreg.table
      rw [lookup_closeSession_self] at htable
      cases htable
    | made hconv hroom hnew hin hd =>
      refine iff_of_true (replaces_of_registered (⟨p, o, hdata, ho, hhas, rfl⟩ : l.Names data o.conv) ?_) hroom
      exact (registered_of_made hlib (l := (l.put j ⟨addr, s⟩).closeSession addr) h.block hnew hin).of_same hlen rfl
    | late _ hd _ =>
      have hd : l.die = true := hd
      rw [hopen] at hd
      cases hd

omit hlib

/-- The datagram decrypts to a packet that closes the session of its address. -/
def EvictsSealed (l : Listener Addr) (data : Bytes) (addr : Addr) : Prop :=
  ∃ p, Session.unframe l.block data = .ok (some p) ∧ l.Evicts p addr

include hlib

/-- The session of an address is replaced, or there is no room. -/
theorem Handled.replaces_iff (h : Inv lib l) {data : Bytes} (hdata : Session.unframe l.block data = .ok (some p))
    (hd : Handled lib l p addr l' got) : (l.die = false → Replaces l l' data addr) ↔
      ¬ (l.die = false ∧ l.Evicts p addr ∧ acceptBacklog ≤ l.chAccepts.length) := by
  by_cases hev : l.Evicts p addr
  · obtain ⟨o, i, c, hf, hsn⟩ := hev
    have hcl := (hd.closes_iff h hf.registered).mpr ⟨o, i, c, hf, hsn⟩
    cases hd with
    | dropped => exact absurd hcl (not_closes_self l i)
    | dispatched hmin ho hout =>
      constructor
      · rintro hrep ⟨hopen, -, hfull⟩
        exact absurd ((hout.replaced hlib h hdata ho hopen hf.registered hcl).mp (hrep hopen)) (Nat.not_lt.mpr hfull)
      · intro hroom hopen
        refine (hout.replaced hlib h hdata ho hopen hf.registered hcl).mpr ?_
        by_contra hfull
        exact hroom ⟨hopen, ⟨o, i, c, hf, hsn⟩, Nat.not_lt.mp hfull⟩
  · refine iff_of_true (fun _ => ?_) fun hbad => hev hbad.2.1
    have hno : ∀ i, l.sessions.lookup addr = some i → ¬ Closes l l' i := fun i hi hcl =>
      hev ((hd.closes_iff h hi).mp hcl)
    refine replaces_of_kept hno fun i hi => ?_
    cases hd with
    | dropped =>
      obtain ⟨c, hc, -, hopen⟩ := h.table addr i hi
      exact ⟨hi, c, hc, hopen⟩
    | dispatched hmin ho hout => exact hout.keeps h hi (hno i hi)

theorem replaces_iff_of_inv (h : Inv lib l) {data : Bytes} (hd : data.length ≤ maxPacketSize) (addr : Addr)
    (clks : Nat → Clock) : ∃ l' got, l.packetInput lib data addr clks = .ok (l', got) ∧
      ((l.die = false → Replaces l l' data addr) ↔
        ¬ (l.die = false ∧ l.EvictsSealed data addr ∧ acceptBacklog ≤ l.chAccepts.length)) := by
  obtain ⟨r, hr, hle⟩ := Session.unframe_ok h.block data
  have hsame : Replaces l l data addr := replaces_of_kept (fun i _ => not_closes_self l i) fun i hi => by
    obtain ⟨c, hc, -, hopen⟩ := h.table addr i hi
    exact ⟨hi, c, hc, hopen⟩
  cases r with
  | none =>
    refine ⟨l, [], by rw [packetInput, hr]; rfl, iff_of_true (fun _ => hsame) ?_⟩
    rintro ⟨-, ⟨p, hp, -⟩, -⟩
    rw [hr] at hp
    cases hp
  | some p =>
    obtain ⟨l', got, hdec, -, hcase⟩ := decrypted_spec hlib h addr (Nat.le_trans (hle p rfl) hd) clks
    refine ⟨l', got, by rw [packetInput, hr]; exact hdec, ?_⟩
    have hev : l.EvictsSealed data addr ↔ l.Evicts p addr := by
      constructor
      · rintro ⟨q, hq, he⟩
        rw [hr] at hq
        cases hq
        exact he
      · exact fun he => ⟨p, hr, he⟩
    rw [hev]
    exact hcase.replaces_iff hlib h hr

end

/-- **A session is replaced in the call that closes it**, or stays, exactly
when it is not an open listener with a full backlog that gets an evicting
packet. -/
theorem replaces_iff_room {lib : Lib} {ds ps : Nat} {block : Block} (hlib : Documented lib) (hb : block.Lawful)
    (ha : ∃ s, Session.new lib 0 ds ps block = .ok s) {l : Listener Addr} (hr : (lts Addr lib ds ps block).Reachable l)
    {data : Bytes} (hd : data.length ≤ 1472) (addr : Addr) (clks : Nat → Clock) :
    ∃ l' got, l.packetInput lib data addr clks = .ok (l', got) ∧
      ((l.die = false → Replaces l l' data addr) ↔
        ¬ (l.die = false ∧ l.EvictsSealed data addr ∧ acceptBacklog ≤ l.chAccepts.length)) :=
  replaces_iff_of_inv hlib (inv_of_reachable hlib hb ha hr).1 hd addr clks

/-- The first packet of a conversation: a PUSH segment with one byte. -/
def hello (conv : UInt8) : Bytes := [conv, 0, 0, 0, 81, 0, 0, 1] ++ List.replicate 12 0 ++ [1, 0, 0, 0, 42]

/-- A listener that heard from `n` addresses. -/
def crowd : Nat → Go (Listener Nat)
  | 0 => .ok (new .nil 0 0)
  | n + 1 => do
    let l ← crowd n
    let (l, _) ← l.step xors (.packetInput (hello 1) n (fun _ _ => 0))
    .ok l

theorem crowd_reachable : ∀ {n : Nat} {l : Listener Nat}, crowd n = .ok l → (lts Nat xors 0 0 .nil).Reachable l
  | 0, l, h => by
    cases h
    exact ⟨_, [], rfl, .nil _⟩
  | n + 1, l, h => by
    obtain ⟨l₀, h0, h⟩ := Go.bind_ok h
    obtain ⟨⟨l₁, out⟩, h1, h⟩ := Go.bind_ok h
    cases h
    have hfits : l₀.Admissible (.packetInput (hello 1) n (fun _ _ => 0)) :=
      (by decide : (hello 1).length ≤ maxPacketSize)
    exact (crowd_reachable h0).step ⟨hfits, out, h1⟩

theorem nil_accepted : ∃ s, Session.new xors 0 0 0 .nil = .ok s := by
  obtain ⟨s, hs, -⟩ : ∃ s, Session.new xors 0 0 0 .nil = .ok s ∧ true = true := Go.of_test (by decide +kernel)
  exact ⟨s, hs⟩

theorem replaces_iff_room_first :
    ∃ l l' got, crowd 1 = .ok l ∧ l.packetInput xors (hello 2) 0 (fun _ _ => 0) = .ok (l', got) ∧
    Replaces l l' (hello 2) 0 := by
  obtain ⟨l, hl, htest⟩ : ∃ l, crowd 1 = .ok l ∧ decide (l.die = false ∧ l.chAccepts.length = 1) = true :=
    Go.of_test (by decide +kernel)
  obtain ⟨hopen, hone⟩ := of_decide_eq_true htest
  obtain ⟨l', got, hp, hiff⟩ := @replaces_iff_room Nat _ xors 0 0 .nil xors_documented trivial nil_accepted l
    (crowd_reachable hl) (hello 2) (by decide) 0 (fun _ _ => 0)
  refine ⟨l, l', got, hl, hp, hiff.mpr ?_ hopen⟩
  rintro ⟨-, -, hfull⟩
  rw [hone] at hfull
  exact absurd hfull (by decide)

/-- **A session is closed with nothing in its place**: the backlog of 128 is
full, and a client that starts a new conversation loses the old one. -/
theorem abandoned : ∃ l l' got, (lts Nat xors 0 0 .nil).Reachable l ∧ l.die = false ∧
    l.packetInput xors (hello 2) 0 (fun _ _ => 0) = .ok (l', got) ∧ Closes l l' 0 ∧ l.sessions.lookup 0 = some 0 ∧
    l'.sessions.lookup 0 = none ∧ ¬ Replaces l l' (hello 2) 0 := by
  obtain ⟨l, hl, htest⟩ : ∃ l, crowd 128 = .ok l ∧ ((l.packetInput xors (hello 2) 0 (fun _ _ => 0)).test fun r =>
      decide (l.die = false ∧ l.sessions.lookup 0 = some 0 ∧ r.1.sessions.lookup 0 = none ∧
        (l.heap[0]?.map fun c => c.sess.die) = some false ∧ (r.1.heap[0]?.map fun c => c.sess.die) = some true)) =
          true :=
    Go.of_test (by decide +kernel)
  obtain ⟨⟨l', got⟩, hp, htest⟩ := Go.of_test htest
  obtain ⟨hopen, hreg, hgone, h0, h1⟩ := of_decide_eq_true htest
  obtain ⟨c, hc, hc0⟩ := Option.map_eq_some_iff.mp h0
  obtain ⟨c', hc', hc1⟩ := Option.map_eq_some_iff.mp h1
  have hcl : Closes l l' 0 := ⟨c, c', hc, hc0, hc', hc1⟩
  refine ⟨l, l', got, crowd_reachable hl, hopen, hp, hcl, hreg, hgone, fun hrep => ?_⟩
  obtain ⟨conv, -, hnew⟩ := hrep.successor 0 hreg hcl
  have htable := hnew.table
  rw [hgone] at htable
  cases htable

/-! ## What the evicting packet is -/

/-- The packet carries a KCP segment header: plain, or behind the FEC header. -/
def Carried (p : Bytes) (conv sn : UInt32) : Prop :=
  flag p = typeData ∧ fecHeaderSizePlus2 + IKCP_OVERHEAD ≤ p.length ∧ conv = LE.u32 p 8 ∧ sn = LE.u32 p 20 ∨
  flag p ≠ typeData ∧ flag p ≠ typeParity ∧ flag p ≠ typeOOB ∧ IKCP_OVERHEAD ≤ p.length ∧
    conv = LE.u32 p 0 ∧ sn = LE.u32 p 12

/-- The start of another conversation than that of session `i`. -/
def Fresh (l : Listener Addr) (p : Bytes) (i : Nat) : Prop :=
  ∃ c conv, l.heap[i]? = some c ∧ Carried p conv 0 ∧ conv ≠ c.sess.kcp.conv

/-- An OOB packet of another conversation than that of session `i`. -/
def ForeignOOB (l : Listener Addr) (p : Bytes) (i : Nat) : Prop :=
  ∃ c, l.heap[i]? = some c ∧ flag p = typeOOB ∧ fecHeaderSizePlus2 + convSize ≤ p.length ∧ LE.u32 p 8 ≠ c.sess.kcp.conv

/-- A packet with a conversation id has a KCP header or is OOB. -/
theorem origin_cases {p : Bytes} {o : Origin} (h : origin p = .ok (some o)) (hconv : o.hasConv = true) :
    Carried p o.conv o.sn ∨ flag p = typeOOB ∧ fecHeaderSizePlus2 + convSize ≤ p.length ∧
      o = ⟨true, LE.u32 p 8, 0⟩ := by
  unfold origin at h
  split at h
  · cases h
  split at h
  · rename_i hdata
    split at h
    · cases h
      cases hconv
    · rename_i hlen
      cases h
      exact .inl (.inl ⟨hdata, Nat.not_lt.mp hlen, rfl, rfl⟩)
  rename_i hdata
  split at h
  · cases h
    cases hconv
  rename_i hpar
  split at h
  · rename_i hoob
    split at h
    · cases h
    · rename_i hlen
      cases h
      exact .inr ⟨hoob, Nat.not_lt.mp hlen, rfl⟩
  rename_i hoob
  split at h
  · cases h
  · rename_i hlen
    cases h
    exact .inl (.inr ⟨hdata, hpar, hoob, Nat.not_lt.mp hlen, rfl, rfl⟩)

theorem origin_oob {p : Bytes} (h : flag p = typeOOB) (hlen : fecHeaderSizePlus2 + convSize ≤ p.length) :
    origin p = .ok (some ⟨true, LE.u32 p 8, 0⟩) := by
  have h12 : 12 ≤ p.length := hlen
  unfold origin
  rw [if_neg (by omega), if_neg (by rw [h]; decide), if_neg (by rw [h]; decide), if_pos h, if_neg (Nat.not_lt.mpr hlen)]
  rfl

/-- What closes a session starts a conversation, unless it is OOB. -/
theorem Handled.fresh_iff {lib : Lib} {l l' : Listener Addr} {addr : Addr} {p : Bytes} {got : List (Nat × Reached)}
    (h : Inv lib l) (hd : Handled lib l p addr l' got) {i : Nat} (hi : l.sessions.lookup addr = some i) :
    (Closes l l' i → l.Fresh p i) ↔ ¬ l.ForeignOOB p i := by
  rw [hd.closes_iff h hi]
  constructor
  · rintro hfresh ⟨c, hc, hflag, hlen, hne⟩
    have hev : l.Evicts p addr := ⟨⟨true, LE.u32 p 8, 0⟩, i, c, ⟨hlen, origin_oob hflag hlen, hi, hc, rfl, hne⟩, rfl⟩
    obtain ⟨_, _, -, hcar, -⟩ := hfresh hev
    rcases hcar with ⟨hdata, -⟩ | ⟨-, -, hoob, -⟩
    · rw [hflag] at hdata
      exact absurd hdata (by decide)
    · exact hoob hflag
  · rintro hno ⟨o, j, c, hf, hsn⟩
    have hreg := hf.registered
    rw [hi] at hreg
    cases hreg
    rcases origin_cases hf.reads hf.hasConv with hcar | ⟨hoob, hlen, rfl⟩
    · rw [hsn] at hcar
      exact ⟨c, o.conv, hf.sess, hcar, hf.differs⟩
    · exact absurd ⟨c, hf.sess, hoob, hlen, hf.differs⟩ hno

/-- Decrypted packets from one address: the listener before the first and
after each. -/
def feed (lib : Lib) (addr : Addr) : Listener Addr → List (Bytes × (Nat → Clock)) → Go (List (Listener Addr))
  | l, [] => .ok [l]
  | l, (p, clks) :: ps => do
    let (l', _) ← l.decrypted lib p addr clks
    let ls ← feed lib addr l' ps
    .ok (l :: ls)

theorem feed_fresh {lib : Lib} (hlib : Documented lib) {addr : Addr} {ps : List (Bytes × (Nat → Clock))} :
    ∀ {l : Listener Addr}, Inv lib l → (∀ x ∈ ps, x.1.length ≤ maxPacketSize) →
    ∃ ls, feed lib addr l ps = .ok ls ∧ ls.length = ps.length + 1 ∧ ls.head? = some l ∧
      ∀ k before after p clks i, ps[k]? = some (p, clks) → ls[k]? = some before → ls[k + 1]? = some after →
        before.sessions.lookup addr = some i →
          ((Closes before after i → before.Fresh p i) ↔ ¬ before.ForeignOOB p i) := by
  induction ps with
  | nil => exact fun _ _ => ⟨_, rfl, rfl, rfl, by simp⟩
  | cons x ps ih =>
    obtain ⟨p, clks⟩ := x
    intro l h hx
    obtain ⟨l', got, hd, hinv, hh⟩ := decrypted_spec hlib h addr (hx _ List.mem_cons_self) clks
    obtain ⟨ls, hls, hlen, hhead, hall⟩ := ih hinv fun y hy => hx y (List.mem_cons_of_mem _ hy)
    refine ⟨l :: ls, by rw [feed, hd]; dsimp only [Go.ok_bind]; rw [hls]; rfl, by simp [hlen], rfl, ?_⟩
    intro k before after q clks' i hq hb ha hi
    cases k with
    | zero =>
      cases hq
      cases hb
      have hl' : ls[0]? = some l' := by rw [← List.head?_eq_getElem?, hhead]
      rw [show (l :: ls)[0 + 1]? = ls[0]? from rfl, hl'] at ha
      cases ha
      exact hh.fresh_iff h hi
    | succ k => exact hall k before after q clks' i hq hb ha hi

/-- **Only the start of a conversation evicts a session**, at every packet of
every sequence, exactly when that packet is not OOB of another conversation. -/
theorem evictor_fresh_iff {lib : Lib} {ds ps : Nat} {block : Block} (hlib : Documented lib) (hb : block.Lawful)
    (ha : ∃ s, Session.new lib 0 ds ps block = .ok s) {l : Listener Addr} (hr : (lts Addr lib ds ps block).Reachable l)
    (addr : Addr) (pkts : List (Bytes × (Nat → Clock))) (hp : ∀ x ∈ pkts, x.1.length ≤ 1472) :
    ∃ ls, feed lib addr l pkts = .ok ls ∧ ls.length = pkts.length + 1 ∧ ls.head? = some l ∧
      ∀ k before after p clks i, pkts[k]? = some (p, clks) → ls[k]? = some before → ls[k + 1]? = some after →
        before.sessions.lookup addr = some i → ((Closes before after i → before.Fresh p i) ↔ ¬ before.ForeignOOB p i) :=
  feed_fresh hlib (inv_of_reachable hlib hb ha hr).1 hp

theorem evictor_fresh_iff_hello : ∃ l l', crowd 1 = .ok l ∧ feed xors 0 l [(hello 2, fun _ _ => 0)] = .ok [l, l'] ∧
    l.Fresh (hello 2) 0 := by
  obtain ⟨l, hl, htest⟩ : ∃ l, crowd 1 = .ok l ∧ ((feed xors 0 l [(hello 2, fun _ _ => 0)]).test fun ls =>
      decide (ls.length = 2 ∧ l.sessions.lookup 0 = some 0 ∧
        (ls[1]?.bind fun l' => l'.heap[0]?.map fun c => c.sess.die) = some true ∧
        (l.heap[0]?.map fun c => c.sess.die) = some false)) = true := Go.of_test (by decide +kernel)
  obtain ⟨ls, hfeed, hlen, hhead, hall⟩ := @evictor_fresh_iff Nat _ xors 0 0 .nil xors_documented trivial nil_accepted l
    (crowd_reachable hl) 0 [(hello 2, fun _ _ => 0)] (by simp [hello])
  rw [hfeed] at htest
  obtain ⟨-, hreg, hdie, hopen⟩ := of_decide_eq_true htest
  obtain ⟨l₀, l', rfl⟩ := List.length_eq_two.mp hlen
  cases hhead
  obtain ⟨c, hc, hc0⟩ := Option.map_eq_some_iff.mp hopen
  obtain ⟨c', hc', hc1⟩ := Option.map_eq_some_iff.mp (hdie : (l'.heap[0]?.map fun c => c.sess.die) = some true)
  refine ⟨l, l', hl, hfeed, (hall 0 l l' (hello 2) (fun _ _ => 0) 0 rfl rfl rfl hreg).mpr ?_ ⟨c, c', hc, hc0, hc', hc1⟩⟩
  rintro ⟨-, -, hflag, -⟩
  exact absurd hflag (by decide)

/-- An OOB packet without a payload. -/
def emptyOOB (conv : UInt8) : Bytes := fecHeader 0xffffffff typeOOB ++ [6, 0] ++ [conv, 0, 0, 0]

/-- **An OOB packet evicts a session.** -/
theorem closed_by_oob : ∃ l l' got, (lts Nat xors 0 0 .nil).Reachable l ∧ l.sessions.lookup 0 = some 0 ∧
    l.decrypted xors (emptyOOB 2) 0 (fun _ _ => 0) = .ok (l', got) ∧ Closes l l' 0 ∧ ¬ l.Fresh (emptyOOB 2) 0 := by
  obtain ⟨l, hl, htest⟩ : ∃ l, crowd 1 = .ok l ∧ ((l.decrypted xors (emptyOOB 2) 0 (fun _ _ => 0)).test fun r =>
      decide (l.sessions.lookup 0 = some 0 ∧ (l.heap[0]?.map fun c => c.sess.die) = some false ∧
        (r.1.heap[0]?.map fun c => c.sess.die) = some true)) = true := Go.of_test (by decide +kernel)
  obtain ⟨⟨l', got⟩, hp, htest⟩ := Go.of_test htest
  obtain ⟨hreg, h0, h1⟩ := of_decide_eq_true htest
  obtain ⟨c, hc, hc0⟩ := Option.map_eq_some_iff.mp h0
  obtain ⟨c', hc', hc1⟩ := Option.map_eq_some_iff.mp h1
  refine ⟨l, l', got, crowd_reachable hl, hreg, hp, ⟨c, c', hc, hc0, hc', hc1⟩, ?_⟩
  rintro ⟨_, _, -, hcar, -⟩
  rcases hcar with ⟨hdata, -⟩ | ⟨-, -, hoob, -⟩
  · exact absurd hdata (by decide)
  · exact hoob (by decide)

end Listener
end KcpGo.L4
