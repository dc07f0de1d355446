import KcpGo.L3Protocol.FecDelivery
import KcpGo.L3Protocol.FecWrap

/-!
# Which shard sets are discarded

`discardShards` compares the starts of two sets as 32-bit numbers, but sets
are numbered modulo `paws / shardSize`, and `paws` is a little less than 2^32:
across the wrap the starts are further apart than the groups. A set that is
exactly `maxShardSets` groups behind the newest is kept, unless the wrap lies
between them (`stale_near_iff`).

Ages are counted in groups that arrived, in the order of encoding. `retention`
says when a delivery discards only sets that are more than `maxShardSets`
groups behind; `early_discard` is a run in which one discards another. A
packet out of reach can be discarded itself (`newest_discarded`).
-/
namespace KcpGo.L3.Fec

open KcpGo.L1 KcpGo.L2 KcpGo.Serial

/-- How many groups there are before the set numbers repeat. -/
def FecLink.groups (s : FecLink) : Nat := s.dec.paws.toNat / s.dec.shardSize

/-- The newest group of which a packet arrived. -/
def FecLink.newestGroup (s : FecLink) : Nat := s.newest / s.dec.shardSize

/-- The last group with set number `id` of which a packet arrived. -/
def FecLink.groupOf (s : FecLink) (id : UInt32) : Option Nat :=
  ((s.arrived.map (· / s.dec.shardSize)).filter (· % s.groups = id.toNat)).max?

/-- The sets that are there when `discardShards` runs: those held and that of
the packet. -/
def Present (dec : FecDecoder) (bts : Bytes) (id : UInt32) : Prop :=
  id = dec.getShardId (seqid bts) ∨ id ∈ dec.shardSet.keys

/-- Only sets of groups more than `maxShardSets` before the newest that arrived
are gone. -/
def OnlyOld (s s' : FecLink) (bts : Bytes) : Prop :=
  ∀ id, Present s.dec bts id → id ∉ s'.dec.shardSet.keys → ∃ g, s'.groupOf id = some g ∧
    g + maxShardSets < s'.newestGroup

/-- The packet is held already. -/
def isDuplicate (dec : FecDecoder) (bts : Bytes) : Bool :=
  ((dec.shardSet.lookup (dec.getShardId (seqid bts))).getD .empty).has (seqid bts)

/-- With the packet, some set is of the group exactly `maxShardSets` before the
newest that arrived, on the other side of the wrap. -/
def AcrossWrap (s s' : FecLink) (bts : Bytes) : Prop :=
  isDuplicate s.dec bts = false ∧ ∃ id g, Present s.dec bts id ∧ s'.groupOf id = some g ∧
    g + maxShardSets = s'.newestGroup ∧ g / s'.groups < s'.newestGroup / s'.groups

section
variable {lib : Lib} {d p off : Nat} {parity : List Bytes → List Bytes} {e : Epoch}
    {dec dec' : FecDecoder} {s s' : FecLink}

/-- **Discarded early.** A set at most `maxShardSets` groups behind the newest
is stale exactly when it is `maxShardSets` behind across the wrap. -/
theorem Laid.stale_near_iff (h : Laid e dec) {id : UInt32} {g n : Nat} (hid : id.toNat = g % e.count)
    (hnew : dec.newestShardId.toNat = n % e.count) (hle : g ≤ n) (hn : n ≤ g + maxShardSets) :
    dec.stale id = true ↔ g + maxShardSets = n ∧ g / e.count < n / e.count := by
  have hsmall := h.small
  have htight := e.tight
  have hgap : e.count * e.size < 2 ^ 32 := h.paws ▸ dec.paws.toNat_lt
  unfold maxShardSets at hn ⊢
  have hcount : 3 ≤ e.count := by
    by_contra hlt
    have := Nat.mul_le_mul_right e.size (show e.count ≤ 2 by omega)
    omega
  have hfar := e.place_le hle (by omega)
  have hthree := Nat.mul_le_mul_right e.size (show n - g ≤ 3 by omega)
  rw [← Bool.not_eq_false, h.stale hid hnew (e.place_mono hle) (by omega)]
  rcases Nat.lt_or_ge n (g + 3) with hlt | hge
  · have hkept := place_two hle (by omega) hsmall
    exact iff_of_false (not_not_intro hkept) fun hc => by omega
  · obtain rfl : n = g + 3 := by omega
    have hwithin := e.place_within hle hgap
    rw [Nat.add_sub_cancel_left] at hwithin
    have hmono := Nat.div_le_div_right (c := e.count) hle
    rw [hwithin]
    omega

/-! ## One call -/

/-- Old sets go once the packet's set is put back. -/
theorem discard_gone {bts : Bytes} {x : ShardHeap}
    (hset : dec'.shardSet = dec.shardSet.insert (dec.getShardId (seqid bts)) x) {id : UInt32}
    (hid : Present dec bts id) :
    id ∉ dec'.discardShards.shardSet.keys ↔ dec'.discardShards.stale id = true := by
  have hkey : id ∈ dec'.shardSet.keys := by
    rw [hset, ← AList.mem_keys, AList.mem_insert]
    exact hid
  rw [FecDecoder.discardShards, Table.keys_keep, List.mem_filter, and_iff_right hkey,
    Bool.not_eq_true, Bool.not_eq_false']
  rfl

theorem duplicate_held {bts : Bytes} (h : isDuplicate dec bts = true) {id : UInt32} (hid : Present dec bts id) :
    id ∈ dec.shardSet.keys := by
  rcases hid with rfl | hid
  · unfold isDuplicate at h
    cases hl : dec.shardSet.lookup (dec.getShardId (seqid bts)) with
    | none =>
      rw [hl] at h
      cases h
    | some x => exact Table.mem_keys_iff.mpr ⟨x, hl⟩
  · exact hid

/-- A packet that is held changes no set; any other makes the stale ones go. -/
theorem LinkInv.gone (h : LinkInv lib d p off parity e s) (he : e.size = d + p)
    (hp : (pawsOf (d + p)).toNat = e.count * e.size) {u : Nat} {pkt : Bytes} {r : List Bytes} (hu : (u, pkt) ∈ s.sent)
    (hd : s.dec.decode lib pkt = .ok (dec', r)) {id : UInt32} (hid : Present s.dec pkt id) :
    id ∉ dec'.shardSet.keys ↔ isDuplicate s.dec pkt = false ∧ dec'.stale id = true := by
  have hexp := h.keeps.expected he hp h.sender.genuine hu
  cases FecDecoder.decode_cases hd with
  | rejected hr =>
    refine absurd hr (UInt32.not_le.mpr ?_)
    rw [UInt32.lt_iff_toNat_lt, seqid_sent hp h.sender.genuine hu, h.keeps.laid.paws]
    exact Nat.mod_lt _ (Nat.mul_pos e.count_pos e.size_pos)
  | tuned _ ht =>
    have hsame : (s.dec.sampled pkt).checked pkt = s.dec.sampled pkt := if_pos hexp
    rw [hsame] at ht
    exact absurd (h.keeps.calm.symm.trans ht) (by decide)
  | repeated _ _ _ hh => exact iff_of_false (not_not_intro (duplicate_held hh hid)) fun hc => nomatch hh.symm.trans hc.1
  | stored _ _ _ hh =>
    rw [and_iff_right (show isDuplicate s.dec pkt = false from hh)]
    exact discard_gone (@FecDecoder.inserted_sets (s.dec.sampled pkt) pkt) hid
  | completed _ _ _ hh =>
    rw [and_iff_right (show isDuplicate s.dec pkt = false from hh)]
    exact discard_gone (@FecDecoder.emptied_sets (s.dec.sampled pkt) pkt) hid

/-! ## Along a run -/

/-- Every set that is there is one of a group that arrived. -/
theorem LinkInv.groupOf (h : LinkInv lib d p off parity e s) (h' : LinkInv lib d p off parity e s')
    (hp : (pawsOf (d + p)).toNat = e.count * e.size) {u : Nat} {pkt : Bytes} (hu : (u, pkt) ∈ s.sent)
    (harr : s'.arrived = u :: s.arrived) {id : UInt32} (hid : Present s.dec pkt id) :
    ∃ g, s'.groupOf id = some g ∧ id.toNat = g % e.count ∧ g ≤ s'.newest / e.size := by
  have hgroups : s'.groups = e.count := by
    rw [FecLink.groups, h'.keeps.laid.paws, h'.keeps.laid.size, Nat.mul_div_cancel _ e.size_pos]
  obtain ⟨g, hg, hmod⟩ : ∃ g ∈ (u :: s.arrived).map (· / e.size), id.toNat = g % e.count := by
    rcases hid with rfl | hid
    · exact ⟨_, List.mem_cons_self, h.keeps.laid.shardId (seqid_sent hp h.sender.genuine hu)⟩
    · obtain ⟨x, hx⟩ := Table.mem_keys_iff.mp hid
      obtain ⟨g, hmod, -, hg, -⟩ := h.keeps.sets id x hx
      exact ⟨g, List.mem_cons_of_mem _ hg, hmod⟩
  have hsome : (s'.groupOf id).isSome = true := by
    refine List.isSome_max?_of_mem (a := g) (List.mem_filter.mpr ⟨?_, ?_⟩)
    · rw [harr, h'.keeps.laid.size]
      exact hg
    · rw [hgroups, hmod]
      exact decide_eq_true rfl
  obtain ⟨m, hm⟩ := Option.isSome_iff_exists.mp hsome
  obtain ⟨hmem, hnum⟩ := List.mem_filter.mp (List.max?_mem hm)
  obtain ⟨v, hv, rfl⟩ := List.mem_map.mp hmem
  rw [hgroups] at hnum
  rw [h'.keeps.laid.size] at hm hnum
  exact ⟨_, hm, (of_decide_eq_true hnum).symm, h'.keeps.upto v hv⟩

/-- **When only old sets are discarded.** In the runs of a genuine stream whose
deliveries are in reach, a delivery discards only sets of groups more than
`maxShardSets` before the newest that arrived, except when one lies exactly so
many before it across the wrap. -/
theorem retention (hc : ∀ c, lib.newCodec d p = some c → c.MDS d p parity) (hs : (nearLink lib d p off).Reachable s)
    {u : Nat} {pkt : Bytes} (hstep : (nearLink lib d p off).step s (.deliver u pkt) s') :
    OnlyOld s s' pkt ↔ ¬ AcrossWrap s s' pkt := by
  obtain ⟨e, he, hp, h⟩ := LinkInv.reachable hc hs
  have h' := h.step he hp hstep
  obtain ⟨hu, dec, r, hd, rfl⟩ := next_deliver hstep.1
  have hlaid : Laid e dec := h'.keeps.laid
  have hgroups : dec.paws.toNat / e.size = e.count := by
    rw [hlaid.paws, Nat.mul_div_cancel _ e.size_pos]
  have hof {id : UInt32} (hid : Present s.dec pkt id) := h.groupOf h' hp hu rfl hid
  simp only [OnlyOld, AcrossWrap, FecLink.newestGroup, FecLink.groups, hlaid.size, hgroups]
  constructor
  · rintro hold ⟨hdup, id, g, hid, hg, hat, hwrap⟩
    obtain ⟨g', hg', hmod, hle⟩ := hof hid
    obtain rfl := Option.some.inj (hg.symm.trans hg')
    have hstale := (hlaid.stale_near_iff hmod h'.keeps.newest hle (Nat.le_of_eq hat.symm)).mpr ⟨hat, hwrap⟩
    obtain ⟨g', hg', hlt⟩ := hold id hid ((h.gone he hp hu hd hid).mpr ⟨hdup, hstale⟩)
    obtain rfl := Option.some.inj (hg.symm.trans hg')
    exact absurd hlt (Nat.not_lt.mpr (Nat.le_of_eq hat.symm))
  · intro hnot id hid hgone
    obtain ⟨g, hg, hmod, hle⟩ := hof hid
    obtain ⟨hdup, hstale⟩ := (h.gone he hp hu hd hid).mp hgone
    refine ⟨g, hg, Nat.not_le.mp fun hnear => hnot ⟨hdup, id, g, hid, hg, ?_⟩⟩
    exact (hlaid.stale_near_iff hmod h'.keeps.newest hle hnear).mp hstale

theorem next_arrived {u : Nat} {pkt : Bytes} (h : s.next lib off (.deliver u pkt) = some s') :
    s'.arrived = u :: s.arrived := by
  obtain ⟨-, dec, r, -, rfl⟩ := next_deliver h
  rfl

end

/-- Five groups are begun, and the first packet is delivered. -/
def fiveGroups : Option FecLink :=
  playNear (List.replicate 9 (.send [0, 0, 0, 0, 0, 0, 0, 0, 5] 0 1) ++ [.deliver 0 [0, 0, 0, 0, 241, 0, 3, 0, 5]])

/-- The set of group 0 goes when a packet of group 4 comes. -/
theorem retention_discards : ∃ s s', (nearLink xors 2 1 0).Reachable s ∧
    (nearLink xors 2 1 0).step s (.deliver 12 [12, 0, 0, 0, 241, 0, 3, 0, 5]) s' ∧ 0 ∈ s.dec.shardSet.keys ∧
    0 ∉ s'.dec.shardSet.keys ∧ OnlyOld s s' [12, 0, 0, 0, 241, 0, 3, 0, 5] := by
  have hplay : fiveGroups.any (fun s => decide (s.InReach 12 ∧ 0 ∈ s.dec.shardSet.keys) &&
      (s.next xors 0 (.deliver 12 [12, 0, 0, 0, 241, 0, 3, 0, 5])).any fun s' =>
        decide (0 ∉ s'.dec.shardSet.keys ∧ s'.newestGroup / s'.groups = 0)) = true := by decide +kernel
  obtain ⟨s, hs, hplay⟩ := (Option.any_eq_true _ _).mp hplay
  obtain ⟨hin, hplay⟩ := Bool.and_eq_true_iff.mp hplay
  obtain ⟨s', hnext, hout⟩ := (Option.any_eq_true _ _).mp hplay
  obtain ⟨hreach, hkey⟩ := of_decide_eq_true hin
  obtain ⟨hgone, hepoch⟩ := of_decide_eq_true hout
  have hr := playNear_reachable hs
  have hstep : (nearLink xors 2 1 0).step s (.deliver 12 _) s' := ⟨hnext, fun u pkt hl => by cases hl; exact hreach⟩
  refine ⟨s, s', hr, hstep, hkey, hgone, (retention (fun c => xors_mds) hr hstep).mpr ?_⟩
  rintro ⟨-, id, g, -, -, -, hlt⟩
  rw [hepoch] at hlt
  exact absurd hlt (Nat.not_lt_zero _)

/-- The groups of a link with groups of three, from what arrived. -/
theorem groups_of_three {s : FecLink} {arr : List Nat} (harr : s.arrived = arr) (hsize : s.dec.shardSize = 3)
    (hpaws : s.dec.paws = 0xFFFFFFFF) : s.groups = 1431655765 ∧ s.newestGroup = arr.foldr max 0 / 3 ∧
      ∀ id, s.groupOf id = ((arr.map (· / 3)).filter (· % 1431655765 = id.toNat)).max? := by
  have hgroups : s.groups = 1431655765 := by
    rw [FecLink.groups, hsize, hpaws]
    rfl
  refine ⟨hgroups, ?_, fun id => ?_⟩
  · rw [FecLink.newestGroup, FecLink.newest, harr, hsize]
  · rw [FecLink.groupOf, hgroups, harr, hsize]

/-- **A set that goes too early.** Group 1431655764, the last before the wrap,
is discarded when the newest group is the third after it. -/
theorem early_discard : ∃ s s', (patientLink xors 2 1 0).Reachable s ∧
    (patientLink xors 2 1 0).step s (.deliver (2 ^ 32 + 5) (wirePkt (2 ^ 32 + 5))) s' ∧
      ¬ OnlyOld s s' (wirePkt (2 ^ 32 + 5)) := by
  have h1 : At [2 ^ 30, 0] (2 * 715827882) := by
    have h : At [] 2 := at_start.send (by omega) fun a ha => absurd ha (by unfold idsOf; omega)
    have h : At [0] 2 := h.deliver 0 (by decide) (by decide) (by decide +kernel)
    have h : At [0] (2 * 715827882) := h.send (by omega) fun a ha => absurd ha (by unfold idsOf; omega)
    exact h.deliver _ (by decide) (by decide) (by decide +kernel)
  have h2 : At [2 ^ 31, 2 ^ 30, 0] (2 * 1073741823) := by
    have h : At [2 ^ 30, 0] (2 * 1073741823) := h1.send (by omega) fun a ha => by
      unfold idsOf at ha
      rcases Nat.eq_zero_or_pos a with h | h
      · exact ⟨0, by simp, by omega⟩
      · exact ⟨2 ^ 30, by simp, by omega⟩
    exact h.deliver _ (by decide) (by decide) (by decide +kernel)
  have hkept {a : Nat} (ha : a ≤ 2 ^ 31) : ∃ v ∈ [2 ^ 31, 2 ^ 30, 0], a ≤ v ∧ v < a + 2 ^ 30 := by
    rcases Nat.eq_zero_or_pos a with h | h
    · exact ⟨0, by simp, by omega⟩
    · rcases Nat.lt_or_ge (2 ^ 30) a with h' | h'
      · exact ⟨2 ^ 31, by simp, by omega⟩
      · exact ⟨2 ^ 30, by simp, by omega⟩
  have h3 : At [2 ^ 32 - 4, 3 * 2 ^ 30, 2 ^ 31, 2 ^ 30, 0] (2 * 1431655765) := by
    have h : At [2 ^ 31, 2 ^ 30, 0] (2 * 1431655765) :=
      h2.send (by omega) fun a ha => hkept (by unfold idsOf at ha; omega)
    have h : At [3 * 2 ^ 30, 2 ^ 31, 2 ^ 30, 0] (2 * 1431655765) :=
      h.deliver _ (by decide) (by decide) (by decide +kernel)
    exact h.deliver _ (by decide) (by decide) (by decide +kernel)
  have h4 : At [2 ^ 32 - 4, 3 * 2 ^ 30, 2 ^ 31, 2 ^ 30, 0] (2 * 1431655768) := by
    refine h3.send (by omega) fun a ha => ?_
    unfold idsOf at ha
    rcases Nat.lt_or_ge (2 ^ 31) a with h | h
    · exact ⟨3 * 2 ^ 30, by simp, by omega⟩
    · obtain ⟨v, hv, hva⟩ := hkept h
      exact ⟨v, List.mem_cons_of_mem _ (List.mem_cons_of_mem _ hv), hva⟩
  obtain ⟨s, s', hr, -, harr, hstep, hd, hfed, -⟩ :=
    h4.brings (u := 2 ^ 32 + 5) (r := []) (by decide) (by decide) (by decide +kernel)
  refine ⟨s, s', hr, hstep, fun hold => ?_⟩
  have hgone : (fed [2 ^ 32 - 4, 3 * 2 ^ 30, 2 ^ 31, 2 ^ 30, 0]).any (fun dec =>
      Go.test (dec.decode xors (wirePkt (2 ^ 32 + 5))) fun r => decide ((1431655764 : UInt32) ∈ dec.shardSet.keys ∧
        (1431655764 : UInt32) ∉ r.1.shardSet.keys ∧ r.1.shardSize = 3 ∧ r.1.paws = 0xFFFFFFFF)) =
          true := by decide +kernel
  rw [hfed, Option.any_some, hd] at hgone
  obtain ⟨hheld, hgone, hsize, hpaws⟩ := of_decide_eq_true hgone
  obtain ⟨-, hnewest, hof⟩ := groups_of_three ((next_arrived hstep.1).trans (congrArg _ harr)) hsize hpaws
  obtain ⟨g, hg, hlt⟩ := hold 1431655764 (.inr hheld) hgone
  rw [hof] at hg
  cases hg
  rw [hnewest] at hlt
  exact absurd hlt (by decide)

/-- **A packet out of reach.** It is 2^31 - 1 ids ahead of the one before, and
its own set is discarded although it is the newest. -/
theorem newest_discarded : ∃ s s', (patientLink xors 2 1 0).Reachable s ∧
    (patientLink xors 2 1 0).step s (.deliver (2 ^ 31 + 1) (wirePkt (2 ^ 31 + 1))) s' ∧
    ¬ OnlyOld s s' (wirePkt (2 ^ 31 + 1)) ∧ ¬ AcrossWrap s s' (wirePkt (2 ^ 31 + 1)) := by
  have h1 : At [2] 1431655767 := by
    have h : At [] 2 := at_start.send (by omega) fun a ha => absurd ha (by unfold idsOf; omega)
    have h : At [2] 2 := h.deliver 2 (by decide) (by decide) (by decide +kernel)
    exact h.send (by omega) fun a ha => ⟨2, by simp, by unfold idsOf at ha; omega, by omega⟩
  obtain ⟨s, s', hr, -, harr, hstep, hd, hfed, -⟩ :=
    h1.brings (u := 2 ^ 31 + 1) (r := []) (by decide) (by decide) (by decide +kernel)
  have hgone : (fed [2]).any (fun dec => Go.test (dec.decode xors (wirePkt (2 ^ 31 + 1))) fun r =>
      decide (dec.getShardId (seqid (wirePkt (2 ^ 31 + 1))) = 715827883 ∧ (715827883 : UInt32) ∉ r.1.shardSet.keys ∧
        r.1.shardSize = 3 ∧ r.1.paws = 0xFFFFFFFF)) = true := by decide +kernel
  rw [hfed, Option.any_some, hd] at hgone
  obtain ⟨hown, hgone, hsize, hpaws⟩ := of_decide_eq_true hgone
  obtain ⟨hgroups, hnewest, hof⟩ := groups_of_three ((next_arrived hstep.1).trans (congrArg _ harr)) hsize hpaws
  refine ⟨s, s', hr, hstep, fun hold => ?_, ?_⟩
  · obtain ⟨g, hg, hlt⟩ := hold 715827883 (.inl hown.symm) hgone
    rw [hof] at hg
    cases hg
    rw [hnewest] at hlt
    exact absurd hlt (by decide)
  · rintro ⟨-, id, g, -, -, -, hwrap⟩
    rw [hgroups, hnewest] at hwrap
    exact absurd hwrap (Nat.not_lt_zero _)

end KcpGo.L3.Fec
