import KcpGo.L3Protocol.FecDelivery

/-!
# Half the circle is too far

A channel that delivers within 2^30 ids and loses no 2^30 ids in a row may
still deliver an id almost 2^31 ahead of the newest one, when packets in
between come late. The signed comparisons then take the newer group for an
older one: its packet is thrown away (`lost_shard`), or a set that is long
gone stays until its number comes round again (`foreign_shard`).

Both runs need billions of packets, all but the first of them equal; `Steady`
describes the encoder along them.
-/
namespace KcpGo.L3.Fec

open KcpGo.L1 KcpGo.L2 KcpGo.Serial

/-- Of 2^30 ids in a row not all are lost: one that arrived within 2^30 ids of
its making is among them. -/
def FecLink.Kept (s : FecLink) : Prop := ∀ a, a + 2 ^ 31 ≤ s.issued → ∃ v ∈ s.arrived, a ≤ v ∧ v < a + 2 ^ 30

/-- The runs in which packets are delivered within 2^30 ids of their making
and no 2^30 in a row are lost. -/
def patientLink (lib : Lib) (d p off : Nat) : LTS FecLink LinkEv :=
  (fecLink lib d p off).restrict fun s l s' => (∀ u pkt, l = .deliver u pkt → s.issued ≤ u + 2 ^ 30) ∧ s'.Kept

/-! ## The sender -/

/-- The size-prefixed payload of packet `j`. -/
def shardAt (j : Nat) : Bytes := if j = 0 then [3, 0, 1] else [3, 0, 2]

def packetAt (j : Nat) : Bytes := List.replicate 6 0 ++ shardAt j

/-- The packet with id `u`. -/
def wirePkt (u : Nat) : Bytes :=
  if u % 3 < 2 then fecHeader (u32 (u % (2 ^ 32 - 1))) typeData ++ shardAt (u / 3 * 2 + u % 3)
  else fecHeader (u32 (u % (2 ^ 32 - 1))) typeParity ++ xorBytes (shardAt (u / 3 * 2)) (shardAt (u / 3 * 2 + 1))

/-- `j` packets were sent, and all of them and their parity are there. -/
structure Steady (s : FecLink) (j : Nat) : Prop where
  sender : Sender 2 1 0 Codec.xorParity s
  shards : s.shards = (List.range j).map shardAt
  sent : ∀ u < idsOf 2 1 j, (u, wirePkt u) ∈ s.sent

theorem shardAt_length (j : Nat) : (shardAt j).length = 3 := by
  unfold shardAt
  split <;> rfl

theorem shardOf_packetAt {enc : FecEncoder} (h : enc.payloadOffset = 6) (j : Nat) :
    enc.shardOf (packetAt j) = shardAt j := by
  unfold FecEncoder.shardOf packetAt shardAt
  rw [h]
  split <;> rfl

theorem paws_three : (pawsOf (2 + 1)).toNat = 2 ^ 32 - 1 := by
  rw [pawsOf_toNat (by omega)]
  decide

theorem Steady.length {s : FecLink} {j : Nat} (h : Steady s j) : s.shards.length = j := by
  rw [h.shards, List.length_map, List.length_range]

theorem Steady.issued {s : FecLink} {j : Nat} (h : Steady s j) : s.issued = idsOf 2 1 j := by
  rw [FecLink.issued, h.sender.collects.data, h.sender.collects.par, h.length]

/-- The parity of two packets. -/
theorem pair_code (a b : Nat) : Codec.xorParity ([shardAt a, shardAt b].map (pad (longest [shardAt a, shardAt b]))) =
    [xorBytes (shardAt a) (shardAt b)] := by
  have hlong : longest [shardAt a, shardAt b] = 3 := by
    simp [longest, shardAt_length]
  have hpad : ∀ j, pad 3 (shardAt j) = shardAt j := by
    intro j
    simp [pad, shardAt_length]
  rw [hlong]
  simp only [List.map_cons, List.map_nil, hpad]
  rfl

theorem idsOf_pair (g r : Nat) (hr : r < 2) : idsOf 2 1 (g * 2 + r) = g * 3 + r := idsOf_add hr

theorem wirePkt_data (g r : Nat) (hr : r < 2) : wirePkt (g * 3 + r) =
    fecHeader (u32 ((g * 3 + r) % (2 ^ 32 - 1))) typeData ++ shardAt (g * 2 + r) := by
  have h1 : (g * 3 + r) % 3 = r := block_mod (by omega)
  have h2 : (g * 3 + r) / 3 = g := block_div (by omega)
  rw [wirePkt, h1, h2, if_pos hr]

theorem wirePkt_parity (g : Nat) : wirePkt (g * 3 + 2) =
    fecHeader (u32 ((g * 3 + 2) % (2 ^ 32 - 1))) typeParity ++ xorBytes (shardAt (g * 2)) (shardAt (g * 2 + 1)) := by
  have h1 : (g * 3 + 2) % 3 = 2 := block_mod (by omega)
  have h2 : (g * 3 + 2) / 3 = g := block_div (by omega)
  rw [wirePkt, h1, h2, if_neg (by omega)]

/-- The group with the next packet. -/
theorem Steady.joined {s : FecLink} {g r : Nat} (h : Steady s (g * 2 + r)) (hr : r < 2) :
    group 2 s.shards (s.shards.length / 2) ++ [shardAt (g * 2 + r)] =
      (List.range (r + 1)).map fun i => shardAt (g * 2 + i) := by
  have hdiv : s.shards.length / 2 = g := by
    rw [h.length]
    exact block_div hr
  have hlen : ((List.range (g * 2 + r + 1)).map shardAt).length = g * 2 + (r + 1) := by simp [Nat.add_assoc]
  rw [hdiv, ← group_append_self h.length hr, h.shards, ← List.map_singleton (f := shardAt), ← List.map_append,
    ← List.range_succ]
  refine List.ext_getElem? fun i => ?_
  by_cases hi : i < 2
  · rw [group_getElem? hi]
    by_cases hir : i < r + 1
    · simp [hir, show g * 2 + i < g * 2 + r + 1 by omega]
    · simp [hir, show ¬ g * 2 + i < g * 2 + r + 1 by omega]
  · rw [List.getElem?_eq_none (by rw [group_length]; omega), List.getElem?_eq_none (by simp; omega)]

/-- One more packet. -/
theorem Steady.send {s : FecLink} {j : Nat} (h : Steady s j) : ∃ l s', s.next xors 0 l = some s' ∧
    (∀ u pkt, l ≠ .deliver u pkt) ∧ Steady s' (j + 1) ∧ s'.dec = s.dec ∧ s'.arrived = s.arrived := by
  have hb : (packetAt j).length = 9 := by
    rw [packetAt, List.length_append, shardAt_length]
    rfl
  have hpl : s.enc.payloadOffset = 6 := h.sender.collects.payload
  obtain ⟨enc', ps, henc, hres⟩ :=
    h.sender.encode (b := packetAt j) (by omega) (by rw [hb]; decide) s.enc.tsLatestPacket 1
  rw [shardOf_packetAt hpl] at henc hres
  have hstep : s.next xors 0 (.send (packetAt j) s.enc.tsLatestPacket 1) =
      some { s with enc := enc'
                    shards := s.shards ++ [shardAt j]
                    sent := s.sent ++ (s.issued, fecHeader s.enc.next typeData ++ shardAt j) ::
                      FecLink.numbered 0 (s.issued + 1) ps } := by
    simp only [FecLink.next, henc, shardOf_packetAt hpl]
    rw [if_pos ⟨by omega, by rw [hb]; decide⟩]
    simp
  refine ⟨_, _, hstep, fun u pkt => by simp, ⟨h.sender.send hstep, ?_, ?_⟩, rfl, rfl⟩
  · rw [List.range_succ, List.map_append, ← h.shards]
    rfl
  · intro u hu
    obtain ⟨g, r, hr, rfl⟩ : ∃ g r, r < 2 ∧ j = g * 2 + r := ⟨j / 2, j % 2, by omega, by omega⟩
    have hn : s.issued = g * 3 + r := h.issued.trans (idsOf_pair g r hr)
    have hnext : s.enc.next = u32 ((g * 3 + r) % (2 ^ 32 - 1)) := by
      have := h.sender.collects.next
      rw [paws_three, hn] at this
      rw [← UInt32.toNat_inj, this, toNat_u32]
      omega
    rw [hn, hnext, ← wirePkt_data g r hr]
    rcases Nat.lt_or_ge u (g * 3 + r) with hlt | hge
    · exact List.mem_append_left _ (h.sent u (by rw [idsOf_pair g r hr]; exact hlt))
    refine List.mem_append_right _ ?_
    rw [h.joined hr] at hres
    rcases Nat.lt_or_ge r 1 with hr0 | hr1
    · obtain rfl : r = 0 := by omega
      rw [idsOf_pair g 1 (by omega)] at hu
      obtain rfl : u = g * 3 + 0 := by omega
      exact List.mem_cons_self
    · obtain rfl : r = 1 := by omega
      have hids : idsOf 2 1 (g * 2 + 1 + 1) = g * 3 + 3 := by
        have := idsOf_pair (g + 1) 0 (by omega)
        rw [show (g + 1) * 2 + 0 = g * 2 + 1 + 1 by omega] at this
        omega
      rw [hids] at hu
      rcases Nat.lt_or_ge u (g * 3 + 2) with hlt | hge'
      · obtain rfl : u = g * 3 + 1 := by omega
        exact List.mem_cons_self
      · obtain rfl : u = g * 3 + 2 := by omega
        refine List.mem_cons_of_mem _ ?_
        cases hres with
        | collecting hcol => exact absurd hcol.few (by simp)
        | skipped hlate _ _ => exact absurd hlate (by simp)
        | made _ _ _ _ hget =>
          obtain ⟨b, hb0, pre, id, hpre, hid, rfl⟩ := hget 0 (xorBytes (shardAt (g * 2)) (shardAt (g * 2 + 1)))
            (by rw [show (List.range (1 + 1)).map (fun i => shardAt (g * 2 + i)) =
              [shardAt (g * 2), shardAt (g * 2 + 1)] from rfl,
              pair_code]; rfl)
          obtain rfl : pre = [] := List.eq_nil_of_length_eq_zero hpre
          obtain rfl : id = u32 ((g * 3 + 2) % (2 ^ 32 - 1)) := by
            have hlt : (g * 3 + 2) % (2 ^ 32 - 1) < 2 ^ 32 := Nat.lt_trans (Nat.mod_lt _ (by omega)) (by omega)
            rw [paws_three, hn] at hid
            rw [← UInt32.toNat_inj, hid, toNat_u32, Nat.mod_eq_of_lt hlt]
          rw [wirePkt_parity]
          exact numbered_mem hb0

/-! ## Along a run -/

/-- The decoder after the ids, the last one first. -/
def fed : List Nat → Option FecDecoder
  | [] => newFECDecoder xors 2 1
  | u :: us => (fed us).bind fun dec =>
    match dec.decode xors (wirePkt u) with
    | .ok (dec', _) => some dec'
    | .error _ => none

/-- A run got here: `j` packets were sent and the ids `arr` delivered. -/
def At (arr : List Nat) (j : Nat) : Prop :=
  ∃ s, (patientLink xors 2 1 0).Reachable s ∧ Steady s j ∧ fed arr = some s.dec ∧ s.arrived = arr ∧ s.Kept

theorem idsOf_mono {j k : Nat} (h : j ≤ k) : idsOf 2 1 j ≤ idsOf 2 1 k := by
  unfold idsOf
  omega

theorem at_start : At [] 0 := by
  have hdec : (newFECDecoder xors 2 1).isSome = true := rfl
  have henc : (newFECEncoder xors.newCodec 2 1 0).isSome = true := rfl
  obtain ⟨dec, hdec⟩ := Option.isSome_iff_exists.mp hdec
  obtain ⟨enc, henc⟩ := Option.isSome_iff_exists.mp henc
  have hi : (patientLink xors 2 1 0).init ⟨enc, dec, [], [], []⟩ := ⟨henc, hdec, rfl, rfl, rfl⟩
  refine ⟨⟨enc, dec, [], [], []⟩, ⟨_, [], hi, .nil _⟩, ⟨Sender.init (fun c => xors_mds) hi, rfl, ?_⟩, hdec, rfl, ?_⟩
  · intro u hu
    cases hu
  · intro a ha
    simp [FecLink.issued, idsOf] at ha

/-- Sending on, as long as no 2^30 ids in a row are lost. -/
theorem At.send {arr : List Nat} {j : Nat} (h : At arr j) {k : Nat} (hk : j ≤ k)
    (hkept : ∀ a, a + 2 ^ 31 ≤ idsOf 2 1 k → ∃ v ∈ arr, a ≤ v ∧ v < a + 2 ^ 30) : At arr k := by
  induction k, hk using Nat.le_induction with
  | base => exact h
  | succ k hk ih =>
    have hids : idsOf 2 1 k ≤ idsOf 2 1 (k + 1) := idsOf_mono (Nat.le_succ k)
    obtain ⟨s, hr, hst, hfed, harr, -⟩ := ih fun a ha => hkept a (Nat.le_trans ha hids)
    obtain ⟨l, s', hnext, hl, hst', hdec, harr'⟩ := hst.send
    have hk' : s'.Kept := by
      intro a ha
      rw [hst'.issued] at ha
      rw [harr', harr]
      exact hkept a ha
    exact ⟨s', hr.step ⟨hnext, fun u pkt he => absurd he (hl u pkt), hk'⟩, hst',
      by rw [hdec, hfed], harr'.trans harr, hk'⟩

/-- What the packet with id `u` brings back. -/
def brings (arr : List Nat) (u : Nat) : Option (List Bytes) :=
  (fed arr).bind fun dec =>
    match dec.decode xors (wirePkt u) with
    | .ok (_, r) => some r
    | .error _ => none

/-- A delivery within 2^30 ids. -/
theorem At.brings {arr : List Nat} {j : Nat} (h : At arr j) {u : Nat} {r : List Bytes} (hu : u < idsOf 2 1 j)
    (ht : idsOf 2 1 j ≤ u + 2 ^ 30) (hb : brings arr u = some r) : ∃ s s', (patientLink xors 2 1 0).Reachable s ∧
    Steady s j ∧ s.arrived = arr ∧ (patientLink xors 2 1 0).step s (.deliver u (wirePkt u)) s' ∧
    s.dec.decode xors (wirePkt u) = .ok (s'.dec, r) ∧ fed arr = some s.dec ∧ At (u :: arr) j := by
  obtain ⟨s, hr, hst, hfed, rfl, hkept⟩ := h
  rw [Fec.brings, hfed, Option.bind_some] at hb
  split at hb
  case h_2 => cases hb
  rename_i dec' r' hd
  cases hb
  have hnext : s.next xors 0 (.deliver u (wirePkt u)) = some { s with dec := dec', arrived := u :: s.arrived } := by
    simp only [FecLink.next, if_pos (hst.sent u hu), hd]
  have hkept' : FecLink.Kept { s with dec := dec', arrived := u :: s.arrived } := by
    intro a ha
    obtain ⟨v, hv, hva⟩ := hkept a ha
    exact ⟨v, List.mem_cons_of_mem _ hv, hva⟩
  have hstep : (patientLink xors 2 1 0).step s (.deliver u (wirePkt u))
      { s with dec := dec', arrived := u :: s.arrived } := by
    refine ⟨hnext, fun v pkt he => ?_, hkept'⟩
    cases he
    rw [hst.issued]
    exact ht
  have hfed' : fed (u :: s.arrived) = some dec' := by
    rw [fed, hfed, Option.bind_some, hd]
  exact ⟨s, _, hr, hst, rfl, hstep, hd, hfed, _, hr.step hstep, ⟨⟨hst.sender.collects, hst.sender.sized, hst.sender.old,
    hst.sender.genuine, hst.sender.coded⟩, hst.shards, hst.sent⟩, hfed', rfl, hkept'⟩

theorem At.deliver {arr : List Nat} {j : Nat} (h : At arr j) (u : Nat) (hu : u < idsOf 2 1 j)
    (ht : idsOf 2 1 j ≤ u + 2 ^ 30)
    (hb : (Fec.brings arr u).isSome = true) : At (u :: arr) j := by
  obtain ⟨r, hr⟩ := Option.isSome_iff_exists.mp hb
  obtain ⟨_, _, _, _, _, _, _, _, hat⟩ := h.brings hu ht hr
  exact hat

/-- The payloads of a group. -/
theorem Steady.mem_group {s : FecLink} {j g : Nat} (h : Steady s j) {x : Bytes} (hx : x ∈ group 2 s.shards g) :
    ∃ k, g * 2 ≤ k ∧ x = shardAt k := by
  obtain ⟨i, hi⟩ := List.mem_iff_getElem?.mp hx
  have hlt : i < 2 := by
    have := (List.getElem?_eq_some_iff.mp hi).1
    rw [group_length] at this
    omega
  rw [group_getElem? hlt, h.shards, List.getElem?_map] at hi
  obtain ⟨k, hk, rfl⟩ := Option.map_eq_some_iff.mp hi
  obtain ⟨hlt', rfl⟩ := List.getElem?_eq_some_iff.mp hk
  exact ⟨_, by rw [List.getElem_range]; omega, rfl⟩

/-! ## The runs -/

/-- **A shard of another group.** The set of the first packet, whose group is
2^31 + 1 ids behind when it is next looked at, is never discarded; one epoch
later a parity packet completes it, and what comes back is no payload of the
parity packet's group. -/
theorem foreign_shard : ∃ s s' r sh, (patientLink xors 2 1 0).Reachable s ∧
    (patientLink xors 2 1 0).step s (.deliver (2 ^ 32 + 1) (wirePkt (2 ^ 32 + 1))) s' ∧
    s.dec.decode xors (wirePkt (2 ^ 32 + 1)) = .ok (s'.dec, r) ∧ sh ∈ r ∧
    ∀ x ∈ group 2 s.shards ((2 ^ 32 + 1) / (2 + 1)), cut sh ≠ some x := by
  have h1 : At [9, 0] 8 := by
    have h0 : At [] 8 := at_start.send (by omega) fun a ha => absurd ha (by unfold idsOf; omega)
    have h0 : At [0] 8 := h0.deliver 0 (by decide) (by decide) (by decide +kernel)
    exact h0.deliver 9 (by decide) (by decide) (by decide +kernel)
  have h2 : At [2 ^ 30 + 8, 2 ^ 31 + 3, 9, 0] (2 * 715827884) := by
    have h : At [9, 0] (2 * 715827884) := h1.send (by omega) fun a ha => ⟨9, by simp, by unfold idsOf at ha; omega⟩
    have h : At [2 ^ 31 + 3, 9, 0] (2 * 715827884) := h.deliver _ (by decide) (by decide) (by decide +kernel)
    exact h.deliver _ (by decide) (by decide) (by decide +kernel)
  have h3 : At [2 ^ 30 + 8, 2 ^ 31 + 3, 9, 0] (2 * 1431655766) := by
    refine h2.send (by omega) fun a ha => ?_
    unfold idsOf at ha
    rcases Nat.lt_or_ge 9 a with h | h
    · rcases Nat.lt_or_ge (2 ^ 30 + 8) a with h' | h'
      · exact ⟨2 ^ 31 + 3, by simp, by omega⟩
      · exact ⟨2 ^ 30 + 8, by simp, by omega⟩
    · exact ⟨9, by simp, by omega⟩
  obtain ⟨s, s', hr, hst, -, hstep, hd, -⟩ := h3.brings (u := 2 ^ 32 + 1) (r := [[3, 0, 1]]) (by decide) (by decide)
    (by decide +kernel)
  refine ⟨s, s', _, [3, 0, 1], hr, hstep, hd, List.mem_singleton.mpr rfl, fun x hx hcut => ?_⟩
  -- every payload of that group is the other one
  obtain ⟨k, hk, rfl⟩ := hst.mem_group hx
  have hsh : shardAt k = [3, 0, 2] := if_neg (by omega)
  rw [hsh] at hcut
  exact absurd hcut (by decide)

/-- **A shard that counts for nothing.** The first packet of a group 2^31 + 1
ids ahead of the newest is taken for an old one and thrown away, so the second
one does not bring back the third. -/
theorem lost_shard : ∃ s s', (patientLink xors 2 1 0).Reachable s ∧
    (patientLink xors 2 1 0).step s (.deliver (2 ^ 31 + 3) (wirePkt (2 ^ 31 + 3))) s' ∧
    (∀ v ∈ s.arrived, v / (2 + 1) ≤ (2 ^ 31 + 3) / (2 + 1) + 2) ∧ 2 ^ 31 + 3 ∉ s.arrived ∧
    distinct (2 + 1) ((2 ^ 31 + 3) :: s.arrived) ((2 ^ 31 + 3) / (2 + 1)) = 2 ∧
    (2 ^ 31 + 3) / (2 + 1) * (2 + 1) + 1 ∉ (2 ^ 31 + 3) :: s.arrived ∧
    s.dec.decode xors (wirePkt (2 ^ 31 + 3)) = .ok (s'.dec, []) := by
  have h1 : At [2] 2 := by
    have h : At [] 2 := at_start.send (by omega) fun a ha => absurd ha (by unfold idsOf; omega)
    exact h.deliver 2 (by decide) (by decide) (by decide +kernel)
  have h2 : At [2 ^ 30 + 2, 2 ^ 31 + 1, 2] (2 * 715827883 + 1) := by
    have h : At [2] (2 * 715827883 + 1) := h1.send (by omega) fun a ha => ⟨2, by simp, by unfold idsOf at ha; omega⟩
    have h : At [2 ^ 31 + 1, 2] (2 * 715827883 + 1) := h.deliver _ (by decide) (by decide) (by decide +kernel)
    exact h.deliver _ (by decide) (by decide) (by decide +kernel)
  have h3 : At [2 ^ 30 + 2, 2 ^ 31 + 1, 2] (2 * 715827883 + 2) := by
    refine h2.send (by omega) fun a ha => ?_
    unfold idsOf at ha
    rcases Nat.lt_or_ge 2 a with h | h
    · exact ⟨2 ^ 30 + 2, by simp, by omega⟩
    · exact ⟨2, by simp, by omega⟩
  obtain ⟨s, s', hr, -, harr, hstep, hd, -⟩ := h3.brings (u := 2 ^ 31 + 3) (r := []) (by decide) (by decide)
    (by decide +kernel)
  refine ⟨s, s', hr, hstep, ?_, ?_, ?_, ?_, hd⟩ <;> rw [harr] <;> decide

end KcpGo.L3.Fec
