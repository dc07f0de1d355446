import KcpGo.Core.LTS
import KcpGo.L2Machine.FecDecoderSpec

/-!
# The memory of the FEC decoder

A peer may send any packets. Seen from the newest shard set, a set that
survives `discardShards` lies at most three sets behind or somewhere ahead on
the other half of the 32-bit circle. Sets get ahead only when the newest id
jumps by almost half the circle, and such a jump leaves at most three of the
sets it passes and three of those it does not reach (`ahead_jump`); so at most
ten sets are kept (`Held.length_le`).

The exception is a set exactly 2^31 ids away: it is neither newer nor old, and
it enters ahead of the newest without moving it. Alternating between both ends
of a diameter collects sets without bound (`hoard`). This needs a shard size
that divides 2^31.
-/
namespace KcpGo.L3.Fec

open KcpGo.L1 KcpGo.L2 KcpGo.Serial

/-- A decoder fed by any peer. -/
def fecReceiver (lib : Lib) (d p : Nat) : LTS FecDecoder Bytes where
  init dec := newFECDecoder lib d p = some dec
  step dec bts dec' := (fecHeaderSizePlus2 ≤ bts.length ∧ bts.length ≤ maxPacketSize) ∧
    ∃ r, dec.decode lib bts = .ok (dec', r)

/-- The packet's set starts exactly 2^31 ids from the newest set. -/
def Antipodal (dec : FecDecoder) (bts : Bytes) : Prop :=
  seqid bts < dec.paws ∧ dec.start (dec.getShardId (seqid bts)) - dec.start dec.newestShardId = 0x80000000

instance (dec : FecDecoder) (bts : Bytes) : Decidable (Antipodal dec bts) :=
  inferInstanceAs (Decidable (_ ∧ _))

/-- The runs without such packets. -/
def tameReceiver (lib : Lib) (d p : Nat) : LTS FecDecoder Bytes :=
  (fecReceiver lib d p).restrict fun dec bts _ => ¬ Antipodal dec bts

/-! ## Where the sets start -/

section
variable {lib : Lib} {dec dec' : FecDecoder}

/-- How far the start of a set lies ahead of `c`. -/
def ahead (dec : FecDecoder) (c id : UInt32) : Nat := (dec.start id - c).toNat

theorem start_toNat (h : dec.Inv lib) {id : UInt32} (hid : id ∈ dec.shardSet.keys) :
    (dec.start id).toNat = id.toNat * dec.shardSize := by
  have hlt := h.starts id hid
  have := dec.paws.toNat_lt
  rw [FecDecoder.start, UInt32.toNat_mul, toNat_ofNat_small h.le]
  exact Nat.mod_eq_of_lt (by omega)

/-- The starts are multiples of the shard size below `paws`. -/
theorem starts_spaced (h : dec.Inv lib) {l : List UInt32} (hl : l ⊆ dec.shardSet.keys) (hn : l.Nodup) :
    Spaced dec.shardSize (l.map dec.start) ∧ (l.map dec.start).Nodup := by
  have hz : 0 < dec.shardSize := by
    have := h.data
    have := h.size
    omega
  -- one start plus one shard size is at most the other, and at most `paws`
  have hgap : ∀ a ∈ l, ∀ b ∈ l, a ≠ b → a.toNat * dec.shardSize < b.toNat * dec.shardSize →
      a.toNat * dec.shardSize + dec.shardSize ≤ b.toNat * dec.shardSize := by
    intro a _ b _ _ hlt
    rw [← Nat.succ_mul]
    exact Nat.mul_le_mul_right _ (Nat.lt_of_mul_lt_mul_right hlt)
  have htop : ∀ a ∈ l, a.toNat * dec.shardSize + dec.shardSize ≤ dec.paws.toNat := by
    intro a ha
    have hlt := h.starts a (hl ha)
    rw [h.paws, pawsOf_toNat h.le] at hlt ⊢
    rw [← Nat.succ_mul]
    exact Nat.mul_le_mul_right _ (Nat.lt_of_mul_lt_mul_right hlt)
  have hne : ∀ a ∈ l, ∀ b ∈ l, a ≠ b → a.toNat * dec.shardSize ≠ b.toNat * dec.shardSize := by
    intro a _ b _ hab he
    exact hab (UInt32.toNat_inj.mp (Nat.eq_of_mul_eq_mul_right hz he))
  constructor
  · intro x hx y hy hxy
    obtain ⟨a, ha, rfl⟩ := List.mem_map.mp hx
    obtain ⟨b, hb, rfl⟩ := List.mem_map.mp hy
    have hab : a ≠ b := fun he => hxy (congrArg dec.start he)
    have h1 := hne a ha b hb hab
    have h2 := hgap a ha b hb hab
    have h3 := hgap b hb a ha (Ne.symm hab)
    have h4 := htop a ha
    have h5 := htop b hb
    have := dec.paws.toNat_lt
    rw [UInt32.toNat_sub, start_toNat h (hl ha), start_toNat h (hl hb)]
    omega
  · refine List.Nodup.map_on (fun a ha b hb he => ?_) hn
    by_contra hab
    have := congrArg UInt32.toNat he
    rw [start_toNat h (hl ha), start_toNat h (hl hb)] at this
    exact hne a ha b hb hab this

/-- An arc of `m` shard sizes holds at most `m` sets. -/
theorem arc_length_le (h : dec.Inv lib) {l : List UInt32} (hl : l ⊆ dec.shardSet.keys) (hn : l.Nodup) (c : UInt32)
    {m : Nat} (hc : ∀ id ∈ l, ahead dec c id < m * dec.shardSize) : l.length ≤ m := by
  obtain ⟨hs, hnd⟩ := starts_spaced h hl hn
  rw [← List.length_map (f := dec.start)]
  refine hs.length_le hnd c fun x hx => ?_
  obtain ⟨a, ha, rfl⟩ := List.mem_map.mp hx
  exact hc a ha

/-! ## Seen from the newest set -/

/-- How far a set lies ahead of the newest one. -/
def lead (dec : FecDecoder) (id : UInt32) : Nat := ahead dec (dec.start dec.newestShardId) id

/-- Ahead on the other half of the circle. -/
def isAhead (dec : FecDecoder) (id : UInt32) : Bool := decide (0 < lead dec id ∧ lead dec id ≤ 2 ^ 31)

theorem lead_lt (dec : FecDecoder) (id : UInt32) : lead dec id < 2 ^ 32 := UInt32.toNat_lt _

theorem stale_false_iff (hle : dec.shardSize ≤ 256) (id : UInt32) :
    dec.stale id = false ↔ lead dec id ≤ 2 ^ 31 ∨ 2 ^ 32 ≤ lead dec id + 3 * dec.shardSize := by
  rw [FecDecoder.stale, decide_eq_false_iff_not, itimediff, diff, toInt_toInt32]
  unfold lead ahead maxShardSets
  have := (dec.start id).toNat_lt
  have := (dec.start dec.newestShardId).toNat_lt
  simp only [UInt32.toNat_sub]
  split <;> omega

/-- What the decoder holds: sets just behind the newest, and few ahead. -/
structure Held (lib : Lib) (dec : FecDecoder) : Prop extends dec.Inv lib where
  kept : ∀ id ∈ dec.shardSet.keys, dec.stale id = false
  few : (dec.shardSet.keys.filter (isAhead dec)).length ≤ 6

/-- **At most ten sets.** -/
theorem Held.length_le (h : Held lib dec) : dec.shardSet.keys.length ≤ 10 := by
  have hnd := dec.shardSet.keys_nodup
  have hbehind : (dec.shardSet.keys.filter fun id => !isAhead dec id).length ≤ 4 := by
    refine arc_length_le h.toInv List.filter_sublist.subset (hnd.filter _)
      (dec.start dec.newestShardId - UInt32.ofNat (3 * dec.shardSize)) fun id hid => ?_
    obtain ⟨hid, ha⟩ := List.mem_filter.mp hid
    have hk := (stale_false_iff h.le id).mp (h.kept id hid)
    have hz := h.le
    have hd := h.data
    have hs := h.size
    have hlt := lead_lt dec id
    have ha' : lead dec id = 0 ∨ 2 ^ 31 < lead dec id := by
      simp only [isAhead, Bool.not_eq_true', decide_eq_false_iff_not] at ha
      omega
    have h3 : (UInt32.ofNat (3 * dec.shardSize)).toNat = 3 * dec.shardSize := by
      rw [UInt32.toNat_ofNat']
      omega
    unfold lead ahead at hk hlt ha'
    rw [ahead, toNat_sub_sub, h3]
    rcases ha' with h0 | h0
    · rw [h0, Nat.mod_eq_of_lt (by omega)]
      omega
    · omega
  have hsplit := List.length_eq_length_filter_add (l := dec.shardSet.keys) (isAhead dec)
  have := h.few
  omega

/-! ## An insertion -/

/-- A jump of almost half the circle leaves ahead only what lies just behind
the antipode or just ahead. -/
theorem ahead_jump (h : Held lib dec) {l : List UInt32} (hl : l ⊆ dec.shardSet.keys) (hn : l.Nodup) {n : UInt32}
    (hbig : 2 ^ 31 ≤ lead dec n + 3 * dec.shardSize) (hlt : lead dec n < 2 ^ 31)
    (hahead : ∀ id ∈ l, 0 < ahead dec (dec.start n) id ∧ ahead dec (dec.start n) id ≤ 2 ^ 31) : l.length ≤ 6 := by
  have hz := h.le
  have hpos : 0 < dec.shardSize := by
    have := h.data
    have := h.size
    omega
  -- which of the two arcs a set that is ahead lies on
  have harc : ∀ id ∈ l, ahead dec (dec.start n) id ≤ 3 * dec.shardSize ∨
      2 ^ 31 < ahead dec (dec.start n) id + 3 * dec.shardSize := by
    intro id hid
    have hk := (stale_false_iff h.le id).mp (h.kept id (hl hid))
    have ha := hahead id hid
    have h1 := lead_lt dec id
    unfold lead ahead at *
    rw [toNat_sub_rebase _ _ (dec.start dec.newestShardId)] at ha ⊢
    omega
  have hnear : (l.filter fun id => decide (ahead dec (dec.start n) id ≤ 3 * dec.shardSize)).length ≤ 3 := by
    refine arc_length_le h.toInv (fun i hi => hl (List.mem_of_mem_filter hi)) (hn.filter _)
      (dec.start n + 1) fun id hid => ?_
    obtain ⟨hid, hd⟩ := List.mem_filter.mp hid
    have ha := hahead id hid
    rw [decide_eq_true_iff] at hd
    unfold ahead at *
    rw [toNat_sub_add, UInt32.toNat_one]
    omega
  have hfar : (l.filter fun id => !decide (ahead dec (dec.start n) id ≤ 3 * dec.shardSize)).length ≤ 3 := by
    refine arc_length_le h.toInv (fun i hi => hl (List.mem_of_mem_filter hi)) (hn.filter _)
      (dec.start n + UInt32.ofNat (2 ^ 31 + 1 - 3 * dec.shardSize)) fun id hid => ?_
    obtain ⟨hid, hd⟩ := List.mem_filter.mp hid
    have ha := hahead id hid
    have hc := harc id hid
    have h3 : (UInt32.ofNat (2 ^ 31 + 1 - 3 * dec.shardSize)).toNat = 2 ^ 31 + 1 - 3 * dec.shardSize := by
      rw [UInt32.toNat_ofNat']
      omega
    rw [Bool.not_eq_true', decide_eq_false_iff_not] at hd
    unfold ahead at *
    rw [toNat_sub_add, h3]
    omega
  have hsplit := List.length_eq_length_filter_add (l := l)
    (fun id => decide (ahead dec (dec.start n) id ≤ 3 * dec.shardSize))
  omega

/-- A shorter jump, or none, puts nothing ahead that was not there. -/
theorem ahead_step (h : Held lib dec) {n id : UInt32} (hid : id ∈ dec.shardSet.keys)
    (hshort : lead dec n + 3 * dec.shardSize < 2 ^ 31)
    (ha : 0 < ahead dec (dec.start n) id ∧ ahead dec (dec.start n) id ≤ 2 ^ 31) : isAhead dec id = true := by
  have hk := (stale_false_iff h.le id).mp (h.kept id hid)
  have hz := h.le
  have hlt := lead_lt dec id
  rw [isAhead, decide_eq_true_iff]
  unfold lead ahead at *
  rw [toNat_sub_rebase _ _ (dec.start dec.newestShardId)] at ha
  omega

/-- A packet of the set `id` came in: the sets are the old ones and `id`, and
the newest is `id` if that is ahead. -/
theorem Held.insert (h : Held lib dec) (hinv : dec'.Inv lib) (hs : FecDecoder.SameShape dec dec') {id : UInt32}
    {x : ShardHeap} (hset : dec'.shardSet = dec.shardSet.insert id x)
    (hnew : dec'.newestShardId = if 0 < itimediff (dec.start id) (dec.start dec.newestShardId) then id
      else dec.newestShardId)
    (hanti : dec.start id - dec.start dec.newestShardId ≠ 0x80000000) : Held lib dec'.discardShards := by
  have hstart : dec'.start = dec.start := by
    funext i
    rw [FecDecoder.start, FecDecoder.start, hs.size]
  have hlead : ∀ i, lead dec'.discardShards i = ahead dec (dec.start dec'.newestShardId) i := by
    intro i
    show (dec'.start i - dec'.start dec'.newestShardId).toNat = _
    rw [hstart]
    rfl
  have hkeys : dec'.discardShards.shardSet.keys = (id :: dec.shardSet.keys.erase id).filter fun i => !dec'.stale i := by
    rw [FecDecoder.discardShards, Table.keys_keep, hset, AList.keys_insert]
  -- a jump is shorter than half the circle, and without one the packet's set is behind
  have hjump : lead dec dec'.newestShardId < 2 ^ 31 ∧ (ahead dec (dec.start dec'.newestShardId) id = 0 ∨
      2 ^ 31 < ahead dec (dec.start dec'.newestShardId) id) := by
    have hne : (dec.start id - dec.start dec.newestShardId).toNat ≠ 2 ^ 31 := fun he =>
      hanti (UInt32.toNat_inj.mp he)
    rw [hnew]
    split
    · rename_i hpos
      have := (diff_pos.mp hpos).2
      exact ⟨this, .inl (by simp [ahead])⟩
    · rename_i hpos
      have hbehind : ¬ (0 < _ ∧ _ < 2 ^ 31) := fun h => hpos (diff_pos.mpr h)
      refine ⟨by simp [lead, ahead], ?_⟩
      unfold ahead
      omega
  refine ⟨hinv.discard, fun i hi => ?_, ?_⟩
  · rw [hkeys] at hi
    show dec'.stale i = false
    simpa using (List.mem_filter.mp hi).2
  · have hnd := dec'.discardShards.shardSet.keys_nodup.filter (isAhead dec'.discardShards)
    have hmem : ∀ i ∈ dec'.discardShards.shardSet.keys.filter (isAhead dec'.discardShards), i ∈ dec.shardSet.keys ∧
        0 < ahead dec (dec.start dec'.newestShardId) i ∧ ahead dec (dec.start dec'.newestShardId) i ≤ 2 ^ 31 := by
      intro i hi
      obtain ⟨hi, ha⟩ := List.mem_filter.mp hi
      rw [isAhead, decide_eq_true_iff, hlead] at ha
      rw [hkeys] at hi
      rcases List.mem_cons.mp (List.mem_of_mem_filter hi) with rfl | hi
      · omega
      · exact ⟨List.mem_of_mem_erase hi, ha⟩
    by_cases hbig : 2 ^ 31 ≤ lead dec dec'.newestShardId + 3 * dec.shardSize
    · exact ahead_jump h (fun i hi => (hmem i hi).1) hnd hbig hjump.1 fun i hi => (hmem i hi).2
    · refine Nat.le_trans (List.subperm_of_subset hnd fun i hi => ?_).length_le h.few
      obtain ⟨h1, h2⟩ := hmem i hi
      exact List.mem_filter.mpr ⟨h1, ahead_step h h1 (Nat.not_le.mp hbig) h2⟩

theorem Held.unchanged (h : Held lib dec) (hs : FecDecoder.SameShape dec dec')
    (hset : dec'.shardSet = dec.shardSet) (hn : dec'.newestShardId = dec.newestShardId) : Held lib dec' := by
  have hlead : lead dec' = lead dec := by
    funext i
    simp only [lead, ahead, FecDecoder.start, hs.size, hn]
  refine ⟨h.toInv.of_sets hs (hset ▸ h.sets) (hset ▸ h.starts), fun i hi => ?_, ?_⟩
  · rw [hset] at hi
    rw [stale_false_iff (hs.size ▸ h.le), hlead, hs.size]
    exact (stale_false_iff h.le i).mp (h.kept i hi)
  · have ha : isAhead dec' = isAhead dec := by
      funext i
      rw [isAhead, isAhead, hlead]
    rw [hset, ha]
    exact h.few

theorem held_of_empty (hi : dec.Inv lib) (he : dec.shardSet = ∅) : Held lib dec := by
  refine ⟨hi, fun i hi => ?_, ?_⟩
  · rw [he] at hi
    cases hi
  · rw [he]
    exact Nat.zero_le _

/-- One call of the decoder. -/
theorem Held.decode (hm : lib.Makes) {bts : Bytes} {r : List Bytes} (hmin : fecHeaderSizePlus2 ≤ bts.length)
    (hd : dec.decode lib bts = .ok (dec', r)) (hanti : ¬ Antipodal dec bts) (h : Held lib dec) : Held lib dec' := by
  have hinv := FecDecoder.decode_inv hm hmin hd h.toInv
  cases FecDecoder.decode_cases hd with
  | rejected _ => exact h.unchanged (FecDecoder.sampled_same bts) rfl rfl
  | tuned _ _ =>
    rcases FecDecoder.tune_cases lib ((dec.sampled bts).checked bts)
      (seqid bts) with ⟨b, he⟩ | ⟨ds, ps, -, -, -, -, -, he⟩
    · rw [he]
      have hc := @FecDecoder.checked_same (dec.sampled bts) bts
      refine h.unchanged ((FecDecoder.sampled_same bts).trans (hc.trans ⟨rfl, rfl, rfl, rfl, rfl, rfl, rfl⟩)) ?_ ?_
      · exact @FecDecoder.checked_sets (dec.sampled bts) bts
      · show ((dec.sampled bts).checked bts).newestShardId = _
        unfold FecDecoder.checked
        split <;> rfl
    · refine held_of_empty hinv ?_
      rw [he, FecDecoder.retune]
      dsimp only
      split <;> rfl
  | repeated _ _ _ _ => exact h.unchanged (FecDecoder.sampled_same bts) rfl rfl
  | stored hp _ hf hh hn hl =>
    exact h.insert (h.toInv.inserted hp hf hh hmin hn hl)
      ((FecDecoder.sampled_same bts).trans (FecDecoder.inserted_same bts))
      (@FecDecoder.inserted_sets (dec.sampled bts) bts) (FecDecoder.updateNewest_newest _ _) fun he => hanti ⟨hp, he⟩
  | completed hp _ hf hh hn _ _ =>
    exact h.insert (h.toInv.emptied hp hf hh hmin hn)
      ((FecDecoder.sampled_same bts).trans (FecDecoder.emptied_same bts))
      (@FecDecoder.emptied_sets (dec.sampled bts) bts) (FecDecoder.updateNewest_newest _ _) fun he => hanti ⟨hp, he⟩

end

/-- **Bounded memory.** In a run without antipodal packets the decoder holds
at most 16 sets; each is below the threshold, its marks are the ids of its
packets, and its packets have the type of their position. -/
theorem bounded_memory (lib : Lib) (hm : lib.Makes) (d p : Nat) (dec : FecDecoder)
    (hr : (tameReceiver lib d p).Reachable dec) : dec.shardSet.keys.length ≤ 16 ∧
    ∀ id h, dec.shardSet.lookup id = some h → h.elements.length < dec.dataShards ∧
      h.marks = (h.elements.map seqid).toFinset ∧ ∀ pkt ∈ h.elements, flag pkt = dec.expected (seqid pkt) := by
  have hind : (tameReceiver lib d p).Inductive (Held lib) := by
    refine ⟨fun s hi => ?_, fun s bts s' hs hst => ?_⟩
    · obtain ⟨hinv, -, -, he, -⟩ := FecDecoder.newFECDecoder_inv hi
      exact held_of_empty hinv he
    · obtain ⟨⟨⟨hmin, -⟩, r, hd⟩, hanti⟩ := hst
      exact hs.decode hm hmin hd hanti
  have hheld := hind.reachable dec hr
  refine ⟨Nat.le_trans hheld.length_le (by decide), fun id h hl => ?_⟩
  have hok := hheld.sets id h hl
  exact ⟨hok.few, hok.marks, fun pkt hpkt => (hok.pkts pkt hpkt).type⟩

/-! ## Runs -/

/-- A data packet with an empty payload. -/
def dataPacket (id : UInt32) : Bytes := fecHeader id typeData ++ LE.put 2 2

def nextDecoder (lib : Lib) (dec : FecDecoder) (bts : Bytes) : Option FecDecoder :=
  match dec.decode lib bts with
  | .ok (dec', _) => some dec'
  | .error _ => none

def sizeOk (bts : Bytes) : Bool := decide (fecHeaderSizePlus2 ≤ bts.length ∧ bts.length ≤ maxPacketSize)

theorem nextDecoder_step {lib : Lib} {d p : Nat} {dec dec' : FecDecoder} {bts : Bytes} (hs : sizeOk bts = true)
    (h : nextDecoder lib dec bts = some dec') : (fecReceiver lib d p).step dec bts dec' := by
  unfold nextDecoder at h
  split at h
  · rename_i r hd
    cases h
    exact ⟨of_decide_eq_true hs, r, hd⟩
  · cases h

/-- Packets of neighbouring sets. -/
def tameRun : List Bytes := [dataPacket 0, dataPacket 2, dataPacket 4]

theorem bounded_memory_neighbours : ∃ dec, (tameReceiver copies 1 1).Reachable dec ∧ dec.shardSet.keys = [2, 1, 0] ∧
    dec.shardSet.keys.length ≤ 16 := by
  obtain ⟨dec₀, h0, dec, hrun, hk⟩ : ∃ dec₀, newFECDecoder copies 1 1 = some dec₀ ∧ ∃ dec,
      LTS.play (nextDecoder copies) (fun dec bts => sizeOk bts && !decide (Antipodal dec bts)) dec₀ tameRun = some dec ∧
      dec.shardSet.keys = [2, 1, 0] :=
    ⟨_, rfl, _, rfl, by decide +kernel⟩
  have hr : (tameReceiver copies 1 1).Reachable dec := by
    refine ⟨dec₀, tameRun, h0, LTS.play_run (M := tameReceiver copies 1 1) (fun s bts s' hg hn => ?_) hrun⟩
    rw [Bool.and_eq_true] at hg
    exact ⟨nextDecoder_step hg.1 hn, by simpa using hg.2⟩
  exact ⟨dec, hr, hk, (bounded_memory copies (fun _ _ _ _ _ => ⟨_, rfl⟩) 1 1 dec hr).1⟩

/-- Packets at both ends of a diameter, in turn. -/
def hoardRun : Nat → List Bytes
  | 0 => []
  | n + 1 => hoardRun n ++ [dataPacket (UInt32.ofNat (2 * n)), dataPacket (UInt32.ofNat (2 ^ 31 + 2 * n))]

/-- **Sets without bound.** With shard counts 1 and 1, packets 2^31 ids apart
fill the decoder: 28 of them leave more than 16 sets. -/
theorem hoard : ∃ dec, (fecReceiver copies 1 1).Reachable dec ∧ 16 < dec.shardSet.keys.length := by
  obtain ⟨dec₀, h0, dec, hrun, hk⟩ : ∃ dec₀, newFECDecoder copies 1 1 = some dec₀ ∧ ∃ dec,
      LTS.play (nextDecoder copies) (fun _ bts => sizeOk bts) dec₀ (hoardRun 14) = some dec ∧
      16 < dec.shardSet.keys.length :=
    ⟨_, rfl, _, rfl, by decide +kernel⟩
  exact ⟨dec, ⟨dec₀, hoardRun 14, h0, LTS.play_run (fun s bts s' hg hn => nextDecoder_step hg hn) hrun⟩, hk⟩

end KcpGo.L3.Fec
