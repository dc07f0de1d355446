import KcpGo.Core.Bytes

/-!
# Which packets a client session takes (`readloop.go`, `readloop_linux.go`)

A session takes the packets of one peer: its remote address, or without one
the source of the first packet. Two read loops keep the peer as a UDP pointer
and a string, where a nil pointer and the empty string mean that there is none
yet; the callback of a `PacketPusher` keeps the address itself.

* `pushed_eq`: the callback takes exactly the packets of the peer.
* `scan_of`: so do the loops, if their two variables can hold the peer.
* `scan_none`, `scan_none_other`: a peer they cannot hold is none to them, and
  they take whatever comes next.
* `receive_paths`: when the three agree and keep to the peer.

The packets are those read before an error or the session's end. An address
does not change while a session holds it.
-/
namespace KcpGo.L4.ReadLoop

/-- `net.UDPAddr`. -/
structure UDPAddr where
  ip : Bytes
  port : Int
  zone : String
  deriving DecidableEq

/-- A `net.Addr` that is not nil: a UDP pointer, which may be, or another one
with its `String`. -/
inductive NetAddr where
  | udp (a : Option UDPAddr)
  | other (str : String)
  deriving DecidableEq

/-- `IP.Equal`: an IPv4 address and its IPv6 form are equal. -/
def ipEqual (ip x : Bytes) : Bool :=
  let v4InV6Prefix : Bytes := List.replicate 10 0 ++ [0xff, 0xff]
  if ip.length = x.length then decide (ip = x)
  else if ip.length = 4 ∧ x.length = 16 then decide (x.take 12 = v4InV6Prefix ∧ ip = x.drop 12)
  else if ip.length = 16 ∧ x.length = 4 then decide (ip.take 12 = v4InV6Prefix ∧ ip.drop 12 = x)
  else false

/-- mirrors src/readloop.go:31-39 (`sameUDPAddr`) -/
def sameUDPAddr : Option UDPAddr → Option UDPAddr → Bool
  | some a, some b => if a.port ≠ b.port ∨ a.zone ≠ b.zone then false else ipEqual a.ip b.ip
  | _, _ => false

theorem sameUDPAddr_self (a : UDPAddr) : sameUDPAddr (some a) (some a) = true := by
  simp [sameUDPAddr, ipEqual]

section

variable {p : NetAddr} {pkts : List (NetAddr × β)} {remote : Option NetAddr}
-- how package net writes an IP address
variable (ipString : Bytes → String)

/-- `net.JoinHostPort`. -/
def joinHostPort (host port : String) : String :=
  if host.contains ':' then "[" ++ host ++ "]:" ++ port else host ++ ":" ++ port

theorem joinHostPort_ne (host port : String) : joinHostPort host port ≠ "" := by
  unfold joinHostPort
  split <;> simp

/-- The method `String`. -/
def NetAddr.string : NetAddr → String
  | .udp none => "<nil>"
  | .udp (some a) => joinHostPort (ipString a.ip ++ if a.zone = "" then "" else "%" ++ a.zone) (toString a.port)
  | .other str => str

theorem string_udp (a : Option UDPAddr) : (NetAddr.udp a).string ipString ≠ "" := by
  cases a with
  | none => simp [NetAddr.string]
  | some a => exact joinHostPort_ne _ _

/-! ## The peer -/

/-- The address is the peer's: the same UDP address, or for another peer the
same text. -/
def samePeer (peer addr : NetAddr) : Bool :=
  match peer with
  | .udp p =>
    match addr with
    | .udp a => sameUDPAddr p a
    | .other _ => false
  | .other str => decide (addr.string ipString = str)

variable {β : Type}

/-- The remote address, or the source of the first packet. -/
def peerOf (remote : Option NetAddr) (pkts : List (NetAddr × β)) : Option NetAddr :=
  remote.or (pkts.head?.map Prod.fst)

/-! ## The callback -/

/-- `pushedFrom` afterwards, and whether the packet goes to `packetInput`.
mirrors src/readloop.go:116-143 (`pushedPacket`) -/
def pushedPacket (remote pushedFrom : Option NetAddr) (addr : NetAddr) : Option NetAddr × Bool :=
  let (src, pushedFrom) :=
    match remote with
    | some src => (src, pushedFrom)
    | none =>
      match pushedFrom with
      | some src => (src, some src)
      | none => (addr, some addr)
  match src with
  | .udp udp =>
    match addr with
    | .udp a => (pushedFrom, sameUDPAddr udp a)
    | .other _ => (pushedFrom, false)
  | .other str => (pushedFrom, addr.string ipString == str)

/-- The packets that go to `packetInput`, of those pushed. -/
def pushed (remote pushedFrom : Option NetAddr) : List (NetAddr × β) → List (NetAddr × β)
  | [] => []
  | x :: xs =>
    let (pushedFrom, passed) := pushedPacket ipString remote pushedFrom x.1
    if passed then x :: pushed remote pushedFrom xs else pushed remote pushedFrom xs

section
variable {remote pushedFrom : Option NetAddr} {p : NetAddr}

theorem pushedPacket_of (h : remote.or pushedFrom = some p) (addr : NetAddr) :
    pushedPacket ipString remote pushedFrom addr = (pushedFrom, samePeer ipString p addr) := by
  cases remote with
  | some r =>
    cases h
    cases p <;> cases addr <;> rfl
  | none =>
    obtain rfl : pushedFrom = some p := h
    cases p <;> cases addr <;> rfl

theorem pushed_of (h : remote.or pushedFrom = some p) (pkts : List (NetAddr × β)) :
    pushed ipString remote pushedFrom pkts = pkts.filter (fun x => samePeer ipString p x.1) := by
  induction pkts with
  | nil => rfl
  | cons x xs ih =>
    rw [pushed, pushedPacket_of ipString h, List.filter_cons]
    dsimp only
    rw [ih]

end

/-- The first packet is compared with its own source. -/
theorem pushed_first (x : NetAddr × β) (xs : List (NetAddr × β)) :
    pushed ipString none none (x :: xs) = pushed ipString none (some x.1) (x :: xs) := rfl

theorem pushed_eq (h : peerOf remote pkts = some p) :
    pushed ipString remote none pkts = pkts.filter (fun x => samePeer ipString p x.1) := by
  cases remote with
  | some r => exact pushed_of ipString (show (some r : Option NetAddr).or none = some p from h) pkts
  | none =>
    cases pkts with
    | nil => rfl
    | cons x xs =>
      rw [pushed_first]
      exact pushed_of ipString h (x :: xs)

/-! ## The loops -/

/-- The variables `src` and `srcStr`. -/
structure Pin where
  src : Option UDPAddr
  srcStr : String

/-- The address in the variables, which were unset.
mirrors src/readloop.go:48-52,67-71; src/readloop_linux.go:51-55,78-82 -/
def Pin.of : NetAddr → Pin
  | .udp a => ⟨a, ""⟩
  | .other str => ⟨none, str⟩

/-- mirrors src/readloop.go:45-53; src/readloop_linux.go:48-56 -/
def Pin.start : Option NetAddr → Pin
  | none => ⟨none, ""⟩
  | some remote => Pin.of remote

/-- The source check of both loops: the variables afterwards, and whether the
packet goes to `packetInput`.
mirrors src/readloop.go:65-81; src/readloop_linux.go:76-92 -/
def Pin.check (pin : Pin) (addr : NetAddr) : Pin × Bool :=
  match pin.src with
  | none =>
    if pin.srcStr = "" then (Pin.of addr, true) else (pin, addr.string ipString == pin.srcStr)
  | some src =>
    match addr with
    | .udp udp => (pin, sameUDPAddr (some src) udp)
    | .other _ => (pin, false)

/-- The variables after a packet. -/
def Pin.next (pin : Pin) (x : NetAddr × β) : Pin := (pin.check ipString x.1).1

/-- The packets that go to `packetInput`, of those read. -/
def scan : Pin → List (NetAddr × β) → List (NetAddr × β)
  | _, [] => []
  | pin, x :: xs =>
    if (pin.check ipString x.1).2 then x :: scan (pin.next ipString x) xs else scan (pin.next ipString x) xs

/-- mirrors src/readloop.go:42-85 (`defaultReadLoop`) -/
def defaultReadLoop (remote : Option NetAddr) (pkts : List (NetAddr × β)) : List (NetAddr × β) :=
  scan ipString (Pin.start remote) pkts

/-- One batch after the other, with the variables kept.
mirrors src/readloop_linux.go:62-97 -/
def scanBatches : Pin → List (List (NetAddr × β)) → List (NetAddr × β)
  | _, [] => []
  | pin, b :: bs => scan ipString pin b ++ scanBatches (b.foldl (Pin.next ipString) pin) bs

/-- The packets come in batches, or without a batch connection one by one.
mirrors src/readloop_linux.go:40-98 (`readLoop`) -/
def readLoop (remote : Option NetAddr) : List (NetAddr × β) ⊕ List (List (NetAddr × β)) → List (NetAddr × β)
  | .inl pkts => defaultReadLoop ipString remote pkts
  | .inr batches => scanBatches ipString (Pin.start remote) batches

theorem scan_append (xs ys : List (NetAddr × β)) : ∀ pin : Pin,
    scan ipString pin (xs ++ ys) = scan ipString pin xs ++ scan ipString (xs.foldl (Pin.next ipString) pin) ys := by
  induction xs with
  | nil => exact fun _ => rfl
  | cons x xs ih =>
    intro pin
    rw [List.cons_append, scan, scan, ih, List.foldl_cons]
    split <;> rfl

theorem scanBatches_eq (batches : List (List (NetAddr × β))) : ∀ pin : Pin,
    scanBatches ipString pin batches = scan ipString pin batches.flatten := by
  induction batches with
  | nil => exact fun _ => rfl
  | cons b bs ih =>
    intro pin
    rw [scanBatches, List.flatten_cons, scan_append, ih]

/-- Where the batches are cut does not matter. -/
theorem readLoop_eq (remote : Option NetAddr) (batches : List (List (NetAddr × β))) :
    readLoop ipString remote (.inr batches) = defaultReadLoop ipString remote batches.flatten :=
  scanBatches_eq ipString batches _

/-- The variables cannot hold the address: it looks like none. -/
def Unheld (p : NetAddr) : Prop := p = .udp none ∨ p = .other ""

theorem Unheld.pin (h : Unheld p) : Pin.of p = ⟨none, ""⟩ := by
  rcases h with rfl | rfl <;> rfl

theorem samePeer_self (h : ¬ Unheld p) : samePeer ipString p p = true := by
  match p with
  | .udp none => exact absurd (Or.inl rfl) h
  | .udp (some a) => exact sameUDPAddr_self a
  | .other str => exact decide_eq_true rfl

theorem samePeer_nil (a : NetAddr) : samePeer ipString (.udp none) a = false := by
  cases a <;> rfl

/-- The source of a packet of such a peer cannot be held either. -/
theorem Unheld.samePeer {a : NetAddr} (h : Unheld p) (ha : samePeer ipString p a = true) : a = .other "" := by
  rcases h with rfl | rfl
  · cases a <;> cases ha
  · cases a with
    | udp a => exact absurd (of_decide_eq_true ha) (string_udp ipString a)
    | other str => exact congrArg NetAddr.other (of_decide_eq_true ha)

theorem check_of (h : ¬ Unheld p) (a : NetAddr) :
    (Pin.of p).check ipString a = (Pin.of p, ReadLoop.samePeer ipString p a) := by
  match p with
  | .udp none => exact absurd (Or.inl rfl) h
  | .udp (some _) => cases a <;> rfl
  | .other str =>
    have hs : str ≠ "" := fun e => h (Or.inr (congrArg _ e))
    exact if_neg hs

/-- A peer that the variables hold stays in them. -/
theorem scan_of (h : ¬ Unheld p) (pkts : List (NetAddr × β)) :
    scan ipString (Pin.of p) pkts = pkts.filter (fun x => ReadLoop.samePeer ipString p x.1) := by
  induction pkts with
  | nil => rfl
  | cons x xs ih => rw [scan, Pin.next, check_of ipString h, List.filter_cons, ih]

/-- Unset variables take the first packet and its source. -/
theorem scan_first (x : NetAddr × β) (xs : List (NetAddr × β)) :
    scan ipString ⟨none, ""⟩ (x :: xs) = x :: scan ipString (Pin.of x.1) xs := rfl

theorem defaultReadLoop_eq
    (h : peerOf remote pkts = some p) (hp : ¬ Unheld p) :
    defaultReadLoop ipString remote pkts = pkts.filter (fun x => ReadLoop.samePeer ipString p x.1) := by
  cases remote with
  | some r =>
    cases h
    exact scan_of ipString hp pkts
  | none =>
    cases pkts with
    | nil => rfl
    | cons x xs =>
      cases h
      rw [List.filter_cons, if_pos (samePeer_self ipString hp), ← scan_of ipString hp xs]
      rfl

/-- With a peer that they cannot hold the variables are unset at the start. -/
theorem defaultReadLoop_unheld
    (h : peerOf remote pkts = some p) (hp : Unheld p) :
    defaultReadLoop ipString remote pkts = scan ipString ⟨none, ""⟩ pkts := by
  cases remote with
  | none => rfl
  | some r =>
    cases h
    rw [defaultReadLoop, Pin.start, hp.pin]

/-- They stay so while only its packets come. -/
theorem scan_none (hp : Unheld p) (pkts : List (NetAddr × β))
    (h : ∀ x ∈ pkts, ReadLoop.samePeer ipString p x.1 = true) : scan ipString ⟨none, ""⟩ pkts = pkts := by
  induction pkts with
  | nil => rfl
  | cons x xs ih =>
    obtain ⟨hx, hxs⟩ := List.forall_mem_cons.1 h
    rw [scan_first, hp.samePeer ipString hx, Unheld.pin (Or.inr rfl), ih hxs]

/-- So the first packet of another source goes through. -/
theorem scan_none_other (hp : Unheld p) (pkts : List (NetAddr × β))
    (h : ∃ x ∈ pkts, ¬ ReadLoop.samePeer ipString p x.1 = true) :
    ∃ x ∈ scan ipString ⟨none, ""⟩ pkts, ¬ ReadLoop.samePeer ipString p x.1 = true := by
  induction pkts with
  | nil => exact absurd h (by simp)
  | cons x xs ih =>
    rw [scan_first]
    by_cases hx : ReadLoop.samePeer ipString p x.1 = true
    · obtain ⟨y, hy, hyp⟩ := h
      have hyx : y ∈ xs := (List.mem_cons.1 hy).resolve_left (fun e => hyp (e ▸ hx))
      obtain ⟨z, hz, hzp⟩ := ih ⟨y, hyx, hyp⟩
      refine ⟨z, List.mem_cons_of_mem x ?_, hzp⟩
      rwa [hp.samePeer ipString hx, Unheld.pin (Or.inr rfl)]
    · exact ⟨x, List.mem_cons_self, hx⟩

/-! ## The three -/

/-- The two loops take what the callback takes, and all three only what the
peer sent. -/
def Agree (remote : Option NetAddr) (batches : List (List (NetAddr × β))) : Prop :=
  let taken := pushed ipString remote none batches.flatten
  defaultReadLoop ipString remote batches.flatten = taken ∧ readLoop ipString remote (.inr batches) = taken ∧
    ∀ p, peerOf remote batches.flatten = some p → ∀ x ∈ taken, ReadLoop.samePeer ipString p x.1 = true

theorem agree_iff (remote : Option NetAddr) (batches : List (List (NetAddr × β))) :
    Agree ipString remote batches ↔
      defaultReadLoop ipString remote batches.flatten = pushed ipString remote none batches.flatten := by
  constructor
  · exact And.left
  · intro h
    refine ⟨h, (readLoop_eq ipString remote batches).trans h, fun p hp x hx => ?_⟩
    rw [pushed_eq ipString hp] at hx
    exact (List.mem_filter.1 hx).2

/-- With a peer that the variables cannot hold, the loops agree with the
callback as long as no other source sends. -/
theorem unheld_iff
    (h : peerOf remote pkts = some p) (hp : Unheld p) :
    defaultReadLoop ipString remote pkts = pushed ipString remote none pkts ↔
      ∀ x ∈ pkts, ReadLoop.samePeer ipString p x.1 = true := by
  rw [defaultReadLoop_unheld ipString h hp, pushed_eq ipString h]
  constructor
  · intro e x hx
    refine Decidable.byContradiction fun hxp => ?_
    obtain ⟨y, hy, hyp⟩ := scan_none_other ipString hp pkts ⟨x, hx, hxp⟩
    rw [e] at hy
    exact hyp (List.mem_filter.1 hy).2
  · intro ha
    rw [scan_none ipString hp pkts ha, List.filter_eq_self.2 ha]

/-- The receive paths agree and keep to the peer, unless it is an address
whose text is empty and a source with another text sends, or a nil UDP pointer
and any source sends. -/
theorem receive_paths (remote : Option NetAddr) (batches : List (List (NetAddr × β))) :
    Agree ipString remote batches ↔
      (peerOf remote batches.flatten = some (.other "") → ∀ x ∈ batches.flatten, x.1.string ipString = "") ∧
        (peerOf remote batches.flatten = some (.udp none) → batches.flatten = []) := by
  rw [agree_iff]
  generalize batches.flatten = pkts
  cases h : peerOf remote pkts with
  | none =>
    obtain ⟨rfl, hh⟩ := Option.or_eq_none_iff.1 h
    obtain rfl : pkts = [] := by simpa using hh
    simp [defaultReadLoop, scan, pushed]
  | some p =>
    by_cases hp : Unheld p
    · rw [unheld_iff ipString h hp]
      rcases hp with rfl | rfl
      · simp [samePeer_nil, List.eq_nil_iff_forall_not_mem]
      · simp [ReadLoop.samePeer]
    · have hne := not_or.1 hp
      simp [defaultReadLoop_eq ipString h hp, pushed_eq ipString h, hne]

end

/-- A client without a remote address hears first a source whose text is
empty and then another one. The loops take both packets, the callback the
first only. -/
theorem empty_name_not_pinned :
    let ipString := fun ip : Bytes => ".".intercalate (ip.map (fun b => toString b.toNat))
    let pkts : List (NetAddr × Nat) := [(.other "", 0), (.other "/run/b", 1)]
    defaultReadLoop ipString none pkts = pkts ∧ pushed ipString none none pkts = [(.other "", 0)] ∧
      ¬ Agree ipString none [pkts] := by
  refine ⟨by decide, by decide, fun h => ?_⟩
  exact absurd h.1 (by decide)

end KcpGo.L4.ReadLoop
