import KcpGo.L3Protocol.FecLink
import Mathlib.Data.Finset.Card

/-!
# Sound and complete recovery

`Near` is the reach of the signed 32-bit comparisons: a packet whose group
lies less than 2^31 ids from the newest one, with room for the three groups
that are kept. Along runs of near deliveries the comparisons agree with the
order of the groups (`Keeps`): the newest set is that of the newest id
delivered, every set belongs to one group and holds packets of that group
that arrived, and a set at most two groups behind the newest holds every
packet of its group that arrived, until there are enough of them.
-/
namespace KcpGo.L3.Fec

open KcpGo.L1 KcpGo.L2 KcpGo.Serial

/-- The blocks of a shard size. -/
def epoch (z : Nat) (h0 : 0 < z) (hle : z ≤ 256) : Epoch where
  size := z
  count := (2 ^ 32 - 1) / z
  size_pos := h0
  count_pos := Nat.div_pos (by omega) h0
  fits := by
    have := Nat.div_mul_le_self (2 ^ 32 - 1) z
    omega
  tight := by
    have h1 := Nat.div_add_mod' (2 ^ 32 - 1) z
    have h2 := Nat.mod_lt (2 ^ 32 - 1) h0
    omega

/-- The decoder's shard size and `paws` are those of the epoch. -/
structure Laid (e : Epoch) (dec : FecDecoder) : Prop where
  size : dec.shardSize = e.size
  paws : dec.paws.toNat = e.count * e.size
  small : e.size ≤ 256

section
variable {e : Epoch} {dec : FecDecoder} {lib : Lib}

theorem Laid.same {dec' : FecDecoder} (h : Laid e dec) (hs : FecDecoder.SameShape dec dec') : Laid e dec' :=
  ⟨hs.size.trans h.size, (congrArg UInt32.toNat hs.paws).trans h.paws, h.small⟩

/-- The set of a packet. -/
theorem Laid.shardId (h : Laid e dec) {u : Nat} {pkt : Bytes} (hid : (seqid pkt).toNat = u % (e.count * e.size)) :
    (dec.getShardId (seqid pkt)).toNat = u / e.size % e.count := by
  rw [FecDecoder.getShardId, UInt32.toNat_div, toNat_ofNat_small (h.size ▸ h.small), h.size, hid, e.wrap_div]

/-- The start of a set, as the comparisons see it. -/
theorem Laid.start (h : Laid e dec) {id : UInt32} {g : Nat} (hid : id.toNat = g % e.count) :
    dec.start id = u32 (e.place g) := by
  rw [e.u32_place, ← UInt32.toNat_inj, toNat_u32, FecDecoder.start, UInt32.toNat_mul,
    toNat_ofNat_small (h.size ▸ h.small), h.size, hid]

/-- The comparison with the newest set. -/
theorem Laid.newer (h : Laid e dec) {a b : UInt32} {g n : Nat} (ha : a.toNat = g % e.count) (hb : b.toNat = n % e.count)
    (h₁ : e.place g < e.place n + 2 ^ 31) (h₂ : e.place n < e.place g + 2 ^ 31) :
    0 < itimediff (dec.start a) (dec.start b) ↔ n < g := by
  have hd := diff_ofNat (a := e.place g) (b := e.place n) (by omega) (by omega)
  rw [itimediff, h.start ha, h.start hb, Int32.lt_iff_toInt_lt, hd]
  constructor
  · intro hlt
    by_contra hge
    have := e.place_mono (Nat.not_lt.mp hge)
    simp only [Int32.toInt_zero] at hlt
    omega
  · intro hlt
    have := e.place_lt hlt
    simp only [Int32.toInt_zero]
    omega

/-- Whether a set is discarded. -/
theorem Laid.stale (h : Laid e dec) {a : UInt32} {g n : Nat} (ha : a.toNat = g % e.count)
    (hb : dec.newestShardId.toNat = n % e.count) (h₁ : e.place g ≤ e.place n) (h₂ : e.place n < e.place g + 2 ^ 31) :
    dec.stale a = false ↔ e.place n ≤ e.place g + 3 * e.size := by
  have hd := diff_ofNat (a := e.place n) (b := e.place g) (by omega) (by omega)
  rw [FecDecoder.stale, decide_eq_false_iff_not, itimediff, h.start ha, h.start hb, hd, h.size]
  unfold maxShardSets
  omega

/-! ## Near packets -/

/-- Group `g` is in reach of the comparisons with group `n`. -/
structure Near (e : Epoch) (n g : Nat) : Prop where
  ahead : e.place g + 3 * e.size < e.place n + 2 ^ 31
  behind : e.place n + 3 * e.size < e.place g + 2 ^ 31

/-- An id at most 2^31 - 5 shard sizes ahead of the newest one, or 2^30 behind. -/
theorem near_of_ids {ν u : Nat} (hle : e.size ≤ 256) (hahead : u + 5 * e.size ≤ ν + 2 ^ 31) (hbehind : ν ≤ u + 2 ^ 30) :
    Near e (ν / e.size) (u / e.size) := by
  have htight := e.tight
  have hpos := e.size_pos
  have h1 := Nat.div_add_mod' ν e.size
  have h2 := Nat.div_add_mod' u e.size
  have h3 := Nat.mod_lt ν hpos
  have h4 := Nat.mod_lt u hpos
  generalize ν / e.size = n at *
  generalize u / e.size = g at *
  -- an epoch is longer than either reach
  have hcount : ∀ a b : Nat, a ≤ b → b * e.size < a * e.size + 2 ^ 31 → b ≤ a + e.count := by
    intro a b _ hlt
    by_contra hgt
    have := Nat.mul_le_mul_right e.size (Nat.le_of_lt (Nat.not_le.mp hgt))
    rw [Nat.add_mul] at this
    omega
  rcases Nat.le_total n g with hng | hgn
  · have hmul := Nat.mul_le_mul_right e.size hng
    have hp := e.place_le hng (hcount n g hng (by omega))
    have hm := e.place_mono hng
    rw [Nat.sub_mul] at hp
    exact ⟨by omega, by omega⟩
  · have hmul := Nat.mul_le_mul_right e.size hgn
    have hp := e.place_le hgn (hcount g n hgn (by omega))
    have hm := e.place_mono hgn
    rw [Nat.sub_mul] at hp
    exact ⟨by omega, by omega⟩

/-- A kept group with the number of a near one is that one. -/
theorem Near.unique {n g g' : Nat} (h : Near e n g) (hle : g' ≤ n) (hk : e.place n ≤ e.place g' + 3 * e.size)
    (hmod : g' % e.count = g % e.count) : g' = g := by
  have := e.place_mono hle
  have := h.ahead
  have := h.behind
  exact e.place_inj hmod (by omega) (by omega)

/-- Two groups behind is not too old, across the end of an epoch too. -/
theorem place_two {n g : Nat} (hle : g ≤ n) (h : n ≤ g + 2) (hs : e.size ≤ 256) :
    e.place n ≤ e.place g + 3 * e.size := by
  have hcount : 2 ≤ e.count := by
    by_contra hlt
    have := Nat.mul_le_mul_right e.size (Nat.le_of_lt_succ (Nat.not_le.mp hlt))
    have := e.tight
    omega
  have hp := e.place_le hle (by omega)
  have := Nat.mul_le_mul_right e.size (show n - g ≤ 2 by omega)
  omega

end

/-! ## The receiver -/

/-- How many different ids of group `g` are in the list. -/
def distinct (z : Nat) (l : List Nat) (g : Nat) : Nat := (l.filter fun v => v / z = g).toFinset.card

/-- The packet is one of group `g` that arrived. -/
def FromGroup (z : Nat) (sent : List (Nat × Bytes)) (arrived : List Nat) (g : Nat) (pkt : Bytes) : Prop :=
  ∃ v ∈ arrived, (v, pkt) ∈ sent ∧ v / z = g

/-- The set with the number of group `g` has a packet with id `v`. -/
def Holds (e : Epoch) (dec : FecDecoder) (sent : List (Nat × Bytes)) (g v : Nat) : Prop :=
  ∃ id h pkt, id.toNat = g % e.count ∧ dec.shardSet.lookup id = some h ∧ pkt ∈ h.elements ∧ (v, pkt) ∈ sent

/-- What the decoder holds when `n` is the newest group that arrived. -/
structure Keeps (e : Epoch) (d : Nat) (sent : List (Nat × Bytes)) (arrived : List Nat) (n : Nat) (dec : FecDecoder) :
    Prop where
  laid : Laid e dec
  data : dec.dataShards = d
  calm : dec.shouldTune = false
  newest : dec.newestShardId.toNat = n % e.count
  upto : ∀ v ∈ arrived, v / e.size ≤ n
  sets : ∀ id h, dec.shardSet.lookup id = some h → ∃ g, id.toNat = g % e.count ∧ g ≤ n ∧ g ∈ arrived.map (· / e.size) ∧
    e.place n ≤ e.place g + 3 * e.size ∧ ∀ pkt ∈ h.elements, FromGroup e.size sent arrived g pkt
  whole : ∀ g, n ≤ g + 2 → distinct e.size arrived g < d → ∀ v ∈ arrived, v / e.size = g → Holds e dec sent g v

section
variable {e : Epoch} {dec dec' : FecDecoder} {lib : Lib} {d n : Nat} {sent : List (Nat × Bytes)} {arrived : List Nat}

theorem FromGroup.cons {z g : Nat} {pkt : Bytes} (u : Nat) (h : FromGroup z sent arrived g pkt) :
    FromGroup z sent (u :: arrived) g pkt := by
  obtain ⟨v, hv, hrest⟩ := h
  exact ⟨v, List.mem_cons_of_mem _ hv, hrest⟩

theorem distinct_le_cons (z u g : Nat) (l : List Nat) : distinct z l g ≤ distinct z (u :: l) g := by
  refine Finset.card_le_card fun v hv => ?_
  simp only [List.mem_toFinset, List.mem_filter, List.mem_cons] at hv ⊢
  exact ⟨.inr hv.1, hv.2⟩

theorem distinct_cons_ne {z u g : Nat} (l : List Nat) (h : u / z ≠ g) : distinct z (u :: l) g = distinct z l g := by
  rw [distinct, List.filter_cons_of_neg (by simpa using h), distinct]

theorem distinct_cons_mem {z u g : Nat} {l : List Nat} (h : u ∈ l) : distinct z (u :: l) g = distinct z l g := by
  unfold distinct
  congr 1
  ext v
  simp only [List.mem_toFinset, List.mem_filter, List.mem_cons]
  constructor
  · rintro ⟨rfl | hv, hg⟩
    · exact ⟨h, hg⟩
    · exact ⟨hv, hg⟩
  · exact fun ⟨hv, hg⟩ => ⟨.inr hv, hg⟩

/-- Ids of one group that wrap to the same value are the same. -/
theorem Laid.id_inj {u v : Nat} (hdiv : u / e.size = v / e.size)
    (hmod : u % (e.count * e.size) = v % (e.count * e.size)) :
    u = v := by
  have := congrArg (· % e.size) hmod
  simp only [e.wrap_mod] at this
  rw [← Nat.div_add_mod' u e.size, hdiv, this, Nat.div_add_mod']

/-- A packet of a near group came in. -/
theorem Keeps.insert (h : Keeps e d sent arrived n dec) (hs : FecDecoder.SameShape dec dec')
    (hcalm : dec'.shouldTune = false)
    {u : Nat} (hnear : Near e n (u / e.size)) {id : UInt32} (hid : id.toNat = u / e.size % e.count) {x : ShardHeap}
    (hset : dec'.shardSet = dec.shardSet.insert id x)
    (hnew : dec'.newestShardId = if 0 < itimediff (dec.start id) (dec.start dec.newestShardId) then id
      else dec.newestShardId)
    (hx : ∀ q ∈ x.elements, FromGroup e.size sent (u :: arrived) (u / e.size) q)
    (hfull : n ≤ u / e.size + 2 → distinct e.size (u :: arrived) (u / e.size) < d → ∀ v ∈ u :: arrived,
      v / e.size = u / e.size → ∃ q ∈ x.elements, (v, q) ∈ sent) :
    Keeps e d sent (u :: arrived) (max n (u / e.size)) dec'.discardShards := by
  have hlaid : Laid e dec' := h.laid.same hs
  have hsmall := h.laid.small
  obtain ⟨hahead, hbehind⟩ := hnear
  have hmax : dec'.newestShardId.toNat = max n (u / e.size) % e.count := by
    have hiff := h.laid.newer hid h.newest (by omega) (by omega)
    rw [hnew]
    split
    · rename_i hlt
      rw [Nat.max_eq_right (Nat.le_of_lt (hiff.mp hlt)), hid]
    · rename_i hlt
      rw [Nat.max_eq_left (Nat.not_lt.mp fun hc => hlt (hiff.mpr hc)), h.newest]
  -- the old sets and the packet's own stay in reach of the new newest group
  have hreach : ∀ g, (g ≤ n ∧ e.place n ≤ e.place g + 3 * e.size) ∨ g = u / e.size →
      g ≤ max n (u / e.size) ∧ e.place (max n (u / e.size)) < e.place g + 2 ^ 31 := by
    intro g hg
    rcases Nat.le_total n (u / e.size) with hle | hle
    · rw [Nat.max_eq_right hle]
      rcases hg with ⟨h1, h2⟩ | rfl
      · exact ⟨by omega, by omega⟩
      · exact ⟨Nat.le_refl _, by omega⟩
    · rw [Nat.max_eq_left hle]
      rcases hg with ⟨h1, h2⟩ | rfl
      · exact ⟨h1, by omega⟩
      · exact ⟨hle, by omega⟩
  have hlook : ∀ i, dec'.discardShards.shardSet.lookup i =
      if dec'.stale i then none else if i = id then some x else dec.shardSet.lookup i := by
    intro i
    rw [FecDecoder.discardShards, Table.lookup_keep, hset]
    by_cases hi : i = id
    · subst hi
      rw [AList.lookup_insert, if_pos rfl]
      cases dec'.stale i <;> rfl
    · rw [AList.lookup_insert_ne hi, if_neg hi]
      cases dec'.stale i <;> rfl
  refine ⟨hlaid.same FecDecoder.discardShards_same, hs.data.trans h.data, hcalm, hmax, ?_, ?_, ?_⟩
  · intro v hv
    rcases List.mem_cons.mp hv with rfl | hv
    · exact Nat.le_max_right _ _
    · exact Nat.le_trans (h.upto v hv) (Nat.le_max_left _ _)
  · intro i y hy
    rw [hlook] at hy
    split at hy
    · cases hy
    rename_i hst
    have hst' := Bool.eq_false_iff.mpr hst
    by_cases hi : i = id
    · subst hi
      rw [if_pos rfl] at hy
      cases hy
      obtain ⟨h1, h2⟩ := hreach _ (.inr rfl)
      exact ⟨u / e.size, hid, h1, List.mem_cons_self, (hlaid.stale hid hmax (e.place_mono h1) h2).mp hst', hx⟩
    · rw [if_neg hi] at hy
      obtain ⟨g, hg, hgn, hga, hgk, hpk⟩ := h.sets i y hy
      obtain ⟨h1, h2⟩ := hreach g (.inl ⟨hgn, hgk⟩)
      have hst' := (hlaid.stale hg hmax (e.place_mono h1) h2).mp hst'
      exact ⟨g, hg, h1, List.mem_cons_of_mem _ hga, hst', fun q hq => (hpk q hq).cons u⟩
  · intro g hg hlt v hv hvg
    have hgn : n ≤ g + 2 := Nat.le_trans (Nat.le_max_left _ _) hg
    -- the set of a group at most two behind is kept
    have hkept : ∀ i : UInt32, i.toNat = g % e.count → g ≤ max n (u / e.size) → dec'.stale i = false := by
      intro i hi hle
      have := place_two hle hg hsmall
      exact (hlaid.stale hi hmax (e.place_mono hle) (by omega)).mpr this
    by_cases hgu : g = u / e.size
    · subst hgu
      obtain ⟨q, hq, hqs⟩ := hfull hgn hlt v hv hvg
      refine ⟨id, x, q, hid, ?_, hq, hqs⟩
      rw [hlook, hkept id hid (Nat.le_max_right _ _)]
      simp
    · have hvold : v ∈ arrived := by
        rcases List.mem_cons.mp hv with rfl | hv
        · exact absurd hvg.symm hgu
        · exact hv
      rw [distinct_cons_ne _ (Ne.symm hgu)] at hlt
      have hle : g ≤ n := hvg ▸ h.upto v hvold
      obtain ⟨i, y, q, hi, hy, hq⟩ := h.whole g hgn hlt v hvold hvg
      have hne : i ≠ id := by
        rintro rfl
        exact hgu (Near.unique ⟨hahead, hbehind⟩ hle (place_two hle hgn hsmall) (hi.symm.trans hid))
      refine ⟨i, y, q, hi, ?_, hq⟩
      rw [hlook, hkept i hi (Nat.le_trans hle (Nat.le_max_left _ _)), if_neg hne]
      simpa using hy

/-- A repeated packet changes nothing. -/
theorem Keeps.again (h : Keeps e d sent arrived n dec) {u : Nat} (hu : u ∈ arrived) :
    Keeps e d sent (u :: arrived) n dec where
  laid := h.laid
  data := h.data
  calm := h.calm
  newest := h.newest
  upto v hv := by
    rcases List.mem_cons.mp hv with rfl | hv
    · exact h.upto v hu
    · exact h.upto v hv
  sets id x hx := by
    obtain ⟨g, hg, hgn, hga, hgk, hpk⟩ := h.sets id x hx
    exact ⟨g, hg, hgn, List.mem_cons_of_mem _ hga, hgk, fun q hq => (hpk q hq).cons u⟩
  whole g hg hlt v hv hvg := by
    rw [distinct_cons_mem hu] at hlt
    rcases List.mem_cons.mp hv with rfl | hv
    · exact h.whole g hg hlt v hu hvg
    · exact h.whole g hg hlt v hv hvg

theorem Keeps.sampled (h : Keeps e d sent arrived n dec) (bts : Bytes) : Keeps e d sent arrived n (dec.sampled bts) :=
  ⟨h.laid.same (FecDecoder.sampled_same bts), h.data, h.calm, h.newest, h.upto, h.sets, h.whole⟩

end

section
variable {e : Epoch} {dec dec' : FecDecoder} {lib : Lib} {d p n : Nat} {shards : List Bytes} {sent : List (Nat × Bytes)}
  {arrived : List Nat} (he : e.size = d + p) (hp : (pawsOf (d + p)).toNat = e.count * e.size)
  (hg : ∀ u pkt, (u, pkt) ∈ sent → Genuine d p shards u pkt)
variable {pkt : Bytes} {u g : Nat} {parity : List Bytes → List Bytes}
include hp hg

theorem seqid_sent (hu : (u, pkt) ∈ sent) : (seqid pkt).toNat = u % (e.count * e.size) := by
  rw [(hg u pkt hu).id, hp]

/-- Packets of one group with one sequence id have the same id before wrapping. -/
theorem id_of_seqid {v : Nat} {a b : Bytes} (ha : (u, a) ∈ sent) (hb : (v, b) ∈ sent) (hdiv : u / e.size = v / e.size)
    (hs : seqid a = seqid b) : u = v := by
  refine Laid.id_inj hdiv ?_
  rw [← seqid_sent hp hg ha, ← seqid_sent hp hg hb, hs]

/-- A set has at most as many packets as arrived of its group. -/
theorem length_le_distinct {l : List Bytes} (hn : (l.map seqid).Nodup)
    (hl : ∀ q ∈ l, FromGroup e.size sent arrived g q) : l.length ≤ distinct e.size arrived g := by
  have hsub : (l.map seqid).toFinset ⊆ ((arrived.filter fun v => v / e.size = g).toFinset).image
      fun v => u32 (v % (e.count * e.size)) := by
    intro a ha
    obtain ⟨q, hq, rfl⟩ := List.mem_map.mp (List.mem_toFinset.mp ha)
    obtain ⟨v, hv, hvs, hvg⟩ := hl q hq
    refine Finset.mem_image.mpr ⟨v, by simp [hv, hvg], ?_⟩
    rw [← seqid_sent hp hg hvs]
    simp [u32]
  calc l.length = (l.map seqid).toFinset.card := by rw [List.toFinset_card_of_nodup hn, List.length_map]
    _ ≤ _ := Finset.card_le_card hsub
    _ ≤ distinct e.size arrived g := Finset.card_image_le

/-- A set with every packet that arrived of its group has at least as many. -/
theorem distinct_le_length {l : List Bytes}
    (hl : ∀ v ∈ arrived, v / e.size = g → ∃ q ∈ l, (v, q) ∈ sent) : distinct e.size arrived g ≤ l.length := by
  have hmem : ∀ v ∈ (arrived.filter fun v => v / e.size = g).toFinset, v ∈ arrived ∧ v / e.size = g := by
    intro v hv
    simpa using hv
  have hinj : Set.InjOn (fun v => u32 (v % (e.count * e.size)))
      ((arrived.filter fun v => v / e.size = g).toFinset : Set Nat) := by
    intro v hv w hw heq
    obtain ⟨hv1, hv2⟩ := hmem v hv
    obtain ⟨hw1, hw2⟩ := hmem w hw
    obtain ⟨a, -, ha⟩ := hl v hv1 hv2
    obtain ⟨b, -, hb⟩ := hl w hw1 hw2
    refine id_of_seqid hp hg ha hb (hv2.trans hw2.symm) ?_
    have h1 := seqid_sent hp hg ha
    have h2 := seqid_sent hp hg hb
    have h3 := congrArg UInt32.toNat heq
    have := (seqid a).toNat_lt
    have := (seqid b).toNat_lt
    simp only [toNat_u32] at h3
    rw [← UInt32.toNat_inj]
    omega
  have hsub : ((arrived.filter fun v => v / e.size = g).toFinset).image (fun v => u32 (v % (e.count * e.size))) ⊆
      (l.map seqid).toFinset := by
    intro a ha
    obtain ⟨v, hv, rfl⟩ := Finset.mem_image.mp ha
    obtain ⟨hv1, hv2⟩ := hmem v hv
    obtain ⟨q, hq, hqs⟩ := hl v hv1 hv2
    refine List.mem_toFinset.mpr (List.mem_map.mpr ⟨q, hq, ?_⟩)
    rw [← seqid_sent hp hg hqs]
    simp [u32]
  calc distinct e.size arrived g = _ := (Finset.card_image_of_injOn hinj).symm
    _ ≤ (l.map seqid).toFinset.card := Finset.card_le_card hsub
    _ ≤ (l.map seqid).length := List.toFinset_card_le _
    _ = l.length := List.length_map _

/-- The set a near packet enters belongs to its group. -/
theorem Keeps.entered (h : Keeps e d sent arrived n dec) (hu : (u, pkt) ∈ sent)
    (hnear : Near e n (u / e.size)) {q : Bytes}
    (hq : q ∈ ((dec.shardSet.lookup (dec.getShardId (seqid pkt))).getD .empty).elements) :
    FromGroup e.size sent arrived (u / e.size) q := by
  have hid := h.laid.shardId (seqid_sent hp hg hu)
  cases hl : dec.shardSet.lookup (dec.getShardId (seqid pkt)) with
  | none =>
    rw [hl] at hq
    cases hq
  | some x =>
    rw [hl] at hq
    obtain ⟨g, hgid, hgn, -, hgk, hpk⟩ := h.sets _ x hl
    obtain rfl := hnear.unique hgn hgk (hgid.symm.trans hid)
    exact hpk q hq

/-- Only a packet that arrived before is a repeat. -/
theorem Keeps.repeated (h : Keeps e d sent arrived n dec) (hinv : dec.Inv lib)
    (hu : (u, pkt) ∈ sent) (hnear : Near e n (u / e.size))
    (hh : ((dec.shardSet.lookup (dec.getShardId (seqid pkt))).getD .empty).has (seqid pkt) = true) : u ∈ arrived := by
  have hset := hinv.entered (dec.getShardId (seqid pkt))
  rw [ShardHeap.has, decide_eq_true_iff, hset.marks, List.mem_toFinset, List.mem_map] at hh
  obtain ⟨q, hq, hqs⟩ := hh
  obtain ⟨v, hv, hvs, hvg⟩ := h.entered hp hg hu hnear hq
  rw [id_of_seqid hp hg hu hvs hvg.symm hqs.symm]
  exact hv

/-- The set with a new packet. -/
theorem Keeps.pushed (h : Keeps e d sent arrived n dec) (hu : (u, pkt) ∈ sent)
    (hnear : Near e n (u / e.size)) :
    (∀ q ∈ (dec.pushed pkt).elements, FromGroup e.size sent (u :: arrived) (u / e.size) q) ∧
    (n ≤ u / e.size + 2 → distinct e.size arrived (u / e.size) < d → ∀ v ∈ u :: arrived, v / e.size = u / e.size →
      ∃ q ∈ (dec.pushed pkt).elements, (v, q) ∈ sent) := by
  have hid := h.laid.shardId (seqid_sent hp hg hu)
  constructor
  · intro q hq
    rcases List.mem_append.mp hq with hq | hq
    · exact (h.entered hp hg hu hnear hq).cons u
    · obtain rfl := List.mem_singleton.mp hq
      exact ⟨u, List.mem_cons_self, hu, rfl⟩
  · intro hn hlt v hv hvg
    rcases List.mem_cons.mp hv with rfl | hv
    · exact ⟨pkt, List.mem_append_right _ (List.mem_singleton.mpr rfl), hu⟩
    · obtain ⟨i, x, q, hi, hx, hq, hqs⟩ := h.whole _ hn hlt v hv hvg
      obtain rfl : i = dec.getShardId (seqid pkt) := UInt32.toNat_inj.mp (hi.trans hid.symm)
      refine ⟨q, List.mem_append_left _ ?_, hqs⟩
      rw [hx]
      exact hq

include he

/-- The decoder expects the type the packet has. -/
theorem Keeps.expected (h : Keeps e d sent arrived n dec) (hu : (u, pkt) ∈ sent) :
    flag pkt = dec.expected (seqid pkt) := by
  have hsmall := h.laid.small
  have hd : (UInt32.ofNat dec.dataShards).toNat = d := by
    rw [h.data]
    exact toNat_ofNat_small (by omega)
  have hmod : (seqid pkt % UInt32.ofNat dec.shardSize).toNat = u % (d + p) := by
    rw [UInt32.toNat_mod, toNat_ofNat_small (h.laid.size ▸ hsmall), h.laid.size, seqid_sent hp hg hu, e.wrap_mod, he]
  rw [(hg u pkt hu).type, FecDecoder.expected]
  simp only [UInt32.lt_iff_toNat_lt, hd, hmod]

/-- **One delivery.** The call returns nothing, or the packet completes its
set and the rest is recovered. -/
theorem Keeps.decode (h : Keeps e d sent arrived n dec) (hinv : dec.Inv lib) {r : List Bytes}
    (hu : (u, pkt) ∈ sent) (hnear : Near e n (u / e.size)) (hd : dec.decode lib pkt = .ok (dec', r)) :
    dec'.Inv lib ∧ dec'.parityShards = dec.parityShards ∧ Keeps e d sent (u :: arrived) (max n (u / e.size)) dec' ∧
    ((r = [] ∧ (u ∈ arrived ∨ (dec.pushed pkt).elements.length < d)) ∨
      ((dec.pushed pkt).elements.length = d ∧ FecDecoder.Full dec (dec.getShardId (seqid pkt))
        (dec.pushed pkt).elements ∧
        dec.recover (dec.pushed pkt).elements = .ok r)) := by
  have hid := h.laid.shardId (seqid_sent hp hg hu)
  have hlt : seqid pkt < dec.paws := by
    rw [UInt32.lt_iff_toNat_lt, seqid_sent hp hg hu, h.laid.paws]
    exact Nat.mod_lt _ (Nat.mul_pos e.count_pos e.size_pos)
  have hexp := h.expected he hp hg hu
  have hmin := (hg u pkt hu).lower
  obtain ⟨hfrom, hwhole⟩ := h.pushed hp hg hu hnear
  cases FecDecoder.decode_cases hd with
  | rejected hr => exact absurd hlt (UInt32.not_lt.mpr hr)
  | tuned _ ht =>
    have hsame : (dec.sampled pkt).checked pkt = dec.sampled pkt := if_pos hexp
    rw [hsame] at ht
    exact absurd (h.calm.symm.trans ht) (by decide)
  | repeated _ _ _ hh =>
    have hmem := h.repeated hp hg hinv hu hnear hh
    have hmax : max n (u / e.size) = n := Nat.max_eq_left (h.upto u hmem)
    rw [hmax]
    exact ⟨hinv.sampled pkt, rfl, (h.again hmem).sampled pkt, .inl ⟨rfl, .inl hmem⟩⟩
  | stored _ _ _ hh hn hl =>
    have hsame := (@FecDecoder.sampled_same dec pkt).trans (FecDecoder.inserted_same pkt)
    refine ⟨(hinv.inserted hlt hexp hh hmin hn hl).discard, hsame.parity, h.insert hsame ?_ hnear hid
      (@FecDecoder.inserted_sets (dec.sampled pkt) pkt) (FecDecoder.updateNewest_newest _ _) hfrom
      fun hn hlt => hwhole hn (Nat.lt_of_le_of_lt (distinct_le_cons _ _ _ _) hlt), .inl ⟨rfl, .inr (h.data ▸ hl)⟩⟩
    obtain ⟨m, he⟩ := FecDecoder.updateNewest_eq { dec.sampled pkt with
      shardSet := dec.shardSet.insert (dec.getShardId (seqid pkt)) (dec.pushed pkt) } (dec.getShardId (seqid pkt))
    exact (congrArg FecDecoder.shouldTune he).trans h.calm
  | completed _ _ _ hh hn hl hr =>
    obtain ⟨-, hnd, hpk, hle⟩ := FecDecoder.pushed_ok hinv hlt hexp hh hmin hn
    have hlen := length_le_distinct hp hg hnd hfrom
    rw [h.data] at hl hle
    have hsame := (@FecDecoder.sampled_same dec pkt).trans (FecDecoder.emptied_same pkt)
    refine ⟨(hinv.emptied hlt hexp hh hmin hn).discard, hsame.parity, h.insert hsame ?_ hnear hid
      (@FecDecoder.emptied_sets (dec.sampled pkt) pkt) (FecDecoder.updateNewest_newest _ _) ?_ ?_,
      .inr ⟨by omega, ⟨hpk, hnd, by rw [h.data]; exact hl⟩, hr⟩⟩
    · obtain ⟨m, he⟩ := FecDecoder.updateNewest_eq { dec.sampled pkt with
        shardSet := dec.shardSet.insert (dec.getShardId (seqid pkt)) (dec.pushed pkt) } (dec.getShardId (seqid pkt))
      exact (congrArg FecDecoder.shouldTune he).trans h.calm
    · intro q hq
      cases hq
    · intro _ hlt'
      omega

/-! ## What a full set gives back -/

theorem Keeps.pos (h : Keeps e d sent arrived n dec) (hu : (u, pkt) ∈ sent) :
    dec.pos pkt = u % (d + p) := by
  rw [FecDecoder.pos, UInt32.toNat_mod, toNat_ofNat_small (h.laid.size ▸ h.laid.small), h.laid.size,
    seqid_sent hp hg hu, e.wrap_mod, he]

/-- Of a group with enough packets every data packet was encoded. -/
theorem Keeps.group_full (h : Keeps e d sent arrived n dec) (hinv : dec.Inv lib)
    (hcode : Coded d p parity shards sent g) {arr : List Nat} {l : List Bytes} {id : UInt32}
    (hl : FecDecoder.Full dec id l)
    (hlen : l.length = d) (hfrom : ∀ q ∈ l, FromGroup e.size sent arr g q) : (group d shards g).length = d := by
  have hd : 0 < d := h.data ▸ hinv.data
  -- `d` places cannot all lie below `d - 1`
  have hlast : ∃ q ∈ l, d - 1 ≤ dec.pos q := by
    by_contra hno
    simp only [not_exists, not_and, Nat.not_le] at hno
    have hsub : l.map dec.pos ⊆ List.range (d - 1) := by
      intro i hi
      obtain ⟨q, hq, rfl⟩ := List.mem_map.mp hi
      exact List.mem_range.mpr (hno q hq)
    have := (List.subperm_of_subset (FecDecoder.pos_nodup hinv.toShape hl.pkts hl.nodup) hsub).length_le
    rw [List.length_map, List.length_range] at this
    omega
  obtain ⟨q, hq, hpos⟩ := hlast
  obtain ⟨v, -, hvs, hvg⟩ := hfrom q hq
  rw [h.pos he hp hg hvs] at hpos
  rw [he] at hvg
  by_cases hdata : v % (d + p) < d
  · have hget := (List.getElem?_eq_some_iff.mp ((hg v q hvs).data hdata)).1
    rw [hvg] at hget
    rw [group_length]
    omega
  · exact (hcode v q hvs hvg (Nat.not_lt.mp hdata)).1

/-- A full set is an erasure of its group's code word. -/
theorem Keeps.erased (h : Keeps e d sent arrived n dec) (hinv : dec.Inv lib)
    (hsized : ∀ x ∈ shards, Sized x) (hmds : dec.codec.MDS d p parity) (hcode : Coded d p parity shards sent g)
    {arr : List Nat} {l : List Bytes} {id : UInt32} (hl : FecDecoder.Full dec id l) (hlen : l.length = d)
    (hfrom : ∀ q ∈ l, FromGroup e.size sent arr g q) :
    ∃ m, FecDecoder.Shards dec parity ((group d shards g).map (pad m)) m l := by
  have hgl := h.group_full he hp hg hinv hcode hl hlen hfrom
  have hm : ∀ x ∈ group d shards g, x.length ≤ longest (group d shards g) := fun x hx => le_longest hx
  have hc := hcode
  unfold Coded at hc
  generalize longest (group d shards g) = m at hm hc
  have hd : 0 < d := h.data ▸ hinv.data
  have hpos : 0 < m := by
    obtain ⟨x, hx⟩ := List.exists_mem_of_length_pos (l := group d shards g) (by omega)
    have := (hsized x (mem_group hx)).1
    have := hm x hx
    omega
  have hdl : ((group d shards g).map (pad m)).length = d := by rw [List.length_map, hgl]
  have huni := hmds.uniform m _ hdl (uniform_pad hm)
  -- each packet, by its place
  have hone : ∀ q ∈ l, ((group d shards g).map (pad m) ++ parity ((group d shards g).map (pad m)))[dec.pos q]? =
      some (fecData q ++ List.replicate (m - (fecData q).length) 0) ∧ (fecData q).length ≤ m ∧
      (d ≤ dec.pos q → (fecData q).length = m) := by
    intro q hq
    obtain ⟨v, -, hvs, hvg⟩ := hfrom q hq
    rw [he] at hvg
    rw [h.pos he hp hg hvs]
    by_cases hdata : v % (d + p) < d
    · have hget := (hg v q hvs).data hdata
      rw [hvg, ← group_getElem? hdata] at hget
      refine ⟨?_, hm _ (List.mem_of_getElem? hget), fun hge => absurd hdata (Nat.not_lt.mpr hge)⟩
      rw [List.getElem?_append_left (by omega), List.getElem?_map, hget]
      rfl
    · have hget := (hc v q hvs hvg (Nat.not_lt.mp hdata)).2
      have hql := huni _ (List.mem_of_getElem? hget)
      refine ⟨?_, Nat.le_of_eq hql, fun _ => hql⟩
      rw [List.getElem?_append_right (by omega), hdl, hget, hql, Nat.sub_self]
      simp
  refine ⟨m, by rw [hdl, h.data], hpos, uniform_pad hm, fun q hq => (hone q hq).1,
    fun q hq => (hone q hq).2.1, fun q hq hge => ?_⟩
  rw [h.data] at hge
  exact (hone q hq).2.2 hge

/-- **Recovery from a full set.** The absent data shards of the group come
back, in order and up to what fills them up. -/
theorem Keeps.recovers (h : Keeps e d sent arrived n dec) (hinv : dec.Inv lib) (hpar : dec.parityShards = p)
     (hsized : ∀ x ∈ shards, Sized x) (hmds : dec.codec.MDS d p parity)
    (hcode : Coded d p parity shards sent g) {arr : List Nat} {l : List Bytes} {id : UInt32}
    (hl : FecDecoder.Full dec id l)
    (hlen : l.length = d) (hfrom : ∀ q ∈ l, FromGroup e.size sent arr g q) :
    ∃ r, dec.recover l = .ok r ∧ r.map cut = (dec.absent l).map fun i => some ((group d shards g).getD i []) := by
  obtain ⟨m, hsh⟩ := h.erased he hp hg hinv hsized hmds hcode hl hlen hfrom
  have hgl := h.group_full he hp hg hinv hcode hl hlen hfrom
  refine ⟨_, FecDecoder.recover_eq hinv.toShape (by rw [h.data, hpar]; exact hmds) hl (hlen.trans h.data.symm) hsh, ?_⟩
  rw [List.map_map]
  refine List.map_congr_left fun i hi => ?_
  have hid : i < (group d shards g).length := by
    rw [hgl, ← h.data]
    exact List.mem_range.mp (List.mem_of_mem_filter hi)
  have hget := List.getElem?_eq_getElem hid
  generalize (group d shards g)[i] = x at hget
  have hx := hsized x (mem_group (List.mem_of_getElem? hget))
  simp only [Function.comp_apply, List.getD_eq_getElem?_getD, List.getElem?_map, hget,
    Option.map_some, Option.getD_some]
  exact hx.cut _

end

end KcpGo.L3.Fec
