import KcpGo.L2Machine.FecDecoderSpec

/-!
# Recovery from a full set

* `pop_spec`: what the decode cache holds after a set is emptied into it.
* `recover_ok`, `decode_ok`: with packets of distinct positions nothing
  panics, so no call of `decode` does.
* `recover_eq`: from shards of one code word the missing data shards come
  back.
-/
namespace KcpGo.L2

open KcpGo.L1 KcpGo.Serial

/-- `ReconstructData` does not panic on what it may be given. -/
def Lib.Total (lib : Lib) : Prop := ∀ d p c, lib.newCodec d p = some c → c.Total d p

namespace FecDecoder

/-- The place of a packet in its set. -/
def pos (dec : FecDecoder) (pkt : Bytes) : Nat := (seqid pkt % UInt32.ofNat dec.shardSize).toNat

section
variable {lib : Lib} {dec : FecDecoder}
variable {id : UInt32} {l : List Bytes}

theorem pos_eq (h : Shape lib dec) (pkt : Bytes) : dec.pos pkt = (seqid pkt).toNat % dec.shardSize := by
  rw [pos, UInt32.toNat_mod, toNat_ofNat_small h.le]

theorem pos_lt (h : Shape lib dec) (pkt : Bytes) : dec.pos pkt < dec.shardSize := by
  rw [pos_eq h]
  have := h.data
  have := h.size
  exact Nat.mod_lt _ (by omega)

/-- In one set the place determines the sequence id. -/
theorem seqid_of_pos (h : Shape lib dec) {a b : Bytes} (ha : PktOk dec id a) (hb : PktOk dec id b)
    (he : dec.pos a = dec.pos b) : seqid a = seqid b := by
  have hset := congrArg UInt32.toNat (ha.set.trans hb.set.symm)
  simp only [getShardId, UInt32.toNat_div, toNat_ofNat_small h.le] at hset
  rw [pos_eq h, pos_eq h] at he
  rw [← UInt32.toNat_inj, ← Nat.div_add_mod (seqid a).toNat dec.shardSize, hset, he, Nat.div_add_mod]

theorem pos_nodup (h : Shape lib dec) (hp : ∀ pkt ∈ l, PktOk dec id pkt)
    (hn : (l.map seqid).Nodup) : (l.map dec.pos).Nodup := by
  have hl : l.Nodup := hn.of_map _
  refine List.Nodup.map_on (fun a ha b hb he => ?_) hl
  exact List.inj_on_of_nodup_map hn ha hb (seqid_of_pos h (hp a ha) (hp b hb) he)

/-- The type tells data from parity. -/
theorem flag_data_iff (h : Shape lib dec) {pkt : Bytes} (hp : PktOk dec id pkt) :
    flag pkt = typeData ↔ dec.pos pkt < dec.dataShards := by
  have hd : (UInt32.ofNat dec.dataShards).toNat = dec.dataShards := by
    have := h.size
    have := h.le
    exact toNat_ofNat_small (by omega)
  have hiff : seqid pkt % UInt32.ofNat dec.shardSize < UInt32.ofNat dec.dataShards ↔ dec.pos pkt < dec.dataShards := by
    rw [UInt32.lt_iff_toNat_lt, hd]
    rfl
  rw [hp.type, expected, ← hiff]
  split
  · rename_i hlt
    exact iff_of_true rfl hlt
  · rename_i hlt
    exact iff_of_false (by decide) hlt

/-! ## Emptying the set -/

/-- The cache after the packets `l` went in. -/
structure PopSpec (dec : FecDecoder) (l : List Bytes) (x : Popped) : Prop where
  length : x.shards.length = dec.decodeCache
  put : ∀ pkt ∈ l, x.shards[dec.pos pkt]? = some (some (fecData pkt))
  free : ∀ i < dec.decodeCache, (∀ pkt ∈ l, dec.pos pkt ≠ i) → x.shards[i]? = some none
  count : x.shards.countP Option.isSome = l.length
  data : x.numDataShard = l.countP fun pkt => flag pkt = typeData
  upper : ∀ pkt ∈ l, (fecData pkt).length ≤ x.maxlen
  lower : x.maxlen = 0 ∨ ∃ pkt ∈ l, x.maxlen = (fecData pkt).length

theorem pop_spec (hd : ∀ pkt ∈ l, dec.pos pkt < dec.decodeCache)
    (hf : ∀ pkt ∈ l, dec.pos pkt < dec.flagCache) (hn : (l.map dec.pos).Nodup) :
    ∃ x, l.foldlM dec.popShard ⟨List.replicate dec.decodeCache none, 0, 0⟩ = .ok x ∧ PopSpec dec l x := by
  induction l using List.reverseRecOn with
  | nil =>
    refine ⟨_, rfl, by simp, by simp, fun i hi _ => ?_, by simp, rfl, by simp, .inl rfl⟩
    rw [List.getElem?_replicate, if_pos hi]
  | append_singleton l pkt ih =>
    rw [List.map_append, List.nodup_append] at hn
    have hnew : ∀ a ∈ l, dec.pos a ≠ dec.pos pkt := fun a ha =>
      hn.2.2 _ (List.mem_map_of_mem ha) _ (by simp)
    obtain ⟨x, hx, hs⟩ := ih (fun a ha => hd a (List.mem_append_left _ ha))
      (fun a ha => hf a (List.mem_append_left _ ha))
      hn.1
    have hpos := hd pkt (by simp)
    have hstep : dec.popShard x pkt = .ok
        { shards := x.shards.set (dec.pos pkt) (some (fecData pkt))
          numDataShard := x.numDataShard + if flag pkt = typeData then 1 else 0
          maxlen := max x.maxlen (fecData pkt).length } := by
      refine if_neg ?_
      have := hf pkt (by simp)
      unfold pos at hpos this
      omega
    refine ⟨_, by rw [List.foldlM_append, hx, Go.ok_bind, List.foldlM_cons, hstep]; rfl, ?_⟩
    have hlt : dec.pos pkt < x.shards.length := hs.length ▸ hpos
    have hfree := hs.free _ hpos hnew
    refine ⟨by simpa using hs.length, ?_, ?_, ?_, ?_, ?_, ?_⟩
    · intro a ha
      rcases List.mem_append.mp ha with ha | ha
      · rw [List.getElem?_set_ne (Ne.symm (hnew a ha))]
        exact hs.put a ha
      · rw [List.mem_singleton] at ha
        subst ha
        exact List.getElem?_set_self hlt
    · intro i hi hne
      rw [List.getElem?_set_ne (hne pkt (by simp))]
      exact hs.free i hi fun a ha => hne a (List.mem_append_left _ ha)
    · rw [List.countP_set hlt, hs.count]
      have : x.shards[dec.pos pkt] = none := by
        rw [List.getElem?_eq_getElem hlt] at hfree
        exact Option.some.inj hfree
      simp [this]
    · rw [List.countP_append, ← hs.data]
      simp [List.countP_cons]
    · intro a ha
      rcases List.mem_append.mp ha with ha | ha
      · exact Nat.le_trans (hs.upper a ha) (Nat.le_max_left _ _)
      · rw [List.mem_singleton] at ha
        subst ha
        exact Nat.le_max_right _ _
    · rcases Nat.le_total x.maxlen (fecData pkt).length with hle | hle
      · exact .inr ⟨pkt, by simp, Nat.max_eq_right hle⟩
      · have hmax : max x.maxlen (fecData pkt).length = x.maxlen := Nat.max_eq_left hle
        rcases hs.lower with h0 | ⟨a, ha, he⟩
        · exact .inl (hmax.trans h0)
        · exact .inr ⟨a, List.mem_append_left _ ha, hmax.trans he⟩

/-- Every shard in the cache is one of the packets'. -/
theorem PopSpec.mem {x : Popped} (hs : PopSpec dec l x) {s : Bytes} (h : some s ∈ x.shards) :
    ∃ pkt ∈ l, s = fecData pkt := by
  obtain ⟨i, hi⟩ := List.mem_iff_getElem?.mp h
  by_contra hno
  have hlt : i < dec.decodeCache := by
    rw [← hs.length]
    exact (List.getElem?_eq_some_iff.mp hi).1
  have hfree : ∀ pkt ∈ l, dec.pos pkt ≠ i := by
    intro pkt hpkt he
    have := hs.put pkt hpkt
    rw [he, hi] at this
    exact hno ⟨pkt, hpkt, by simpa using this⟩
  rw [hs.free i hlt hfree] at hi
  cases hi

/-- A shard of the cache, filled up with zeros. -/
def padded (maxlen : Nat) : Option Bytes → Bytes
  | none => []
  | some s => s ++ List.replicate (maxlen - s.length) 0

theorem fillUp_ok {maxlen : Nat} (h : maxlen ≤ maxPacketSize - fecHeaderSize) (o : Option Bytes) :
    fillUp maxlen o = .ok (padded maxlen o) := by
  cases o with
  | none => rfl
  | some s => exact if_neg (Nat.not_lt.mpr h)

/-- The packets a set is emptied of. -/
structure Full (dec : FecDecoder) (id : UInt32) (l : List Bytes) : Prop where
  pkts : ∀ pkt ∈ l, PktOk dec id pkt
  nodup : (l.map seqid).Nodup
  enough : dec.dataShards ≤ l.length

theorem fecData_length {pkt : Bytes} (h : PktOk dec id pkt) :
    2 ≤ (fecData pkt).length ∧ (fecData pkt).length ≤ maxPacketSize - fecHeaderSize := by
  have h1 := h.lower
  have h2 := h.upper
  unfold fecHeaderSizePlus2 at h1
  unfold maxPacketSize at h2
  rw [fecData, List.length_drop]
  unfold maxPacketSize fecHeaderSize
  omega

/-- Emptying a full set, up to the call of `ReconstructData`. -/
theorem recover_pop (h : Shape lib dec) (hl : Full dec id l) :
    ∃ x, PopSpec dec l.reverse x ∧ dec.recover l = dec.reconstruct x ∧ 0 < x.maxlen ∧
      x.shards.mapM (fillUp x.maxlen) = .ok (x.shards.map (padded x.maxlen)) := by
  have hpos : ∀ pkt ∈ l.reverse, dec.pos pkt < dec.shardSize := fun pkt _ => pos_lt h pkt
  have hn : (l.reverse.map dec.pos).Nodup := by
    rw [List.map_reverse, List.nodup_reverse]
    exact pos_nodup h hl.pkts hl.nodup
  obtain ⟨x, hx, hs⟩ := pop_spec (l := l.reverse) (h.decodeCache.symm ▸ hpos) (h.flagCache.symm ▸ hpos) hn
  have hpkt : ∀ pkt ∈ l.reverse, PktOk dec id pkt := fun pkt hp => hl.pkts pkt (List.mem_reverse.mp hp)
  have hmax : x.maxlen ≤ maxPacketSize - fecHeaderSize := by
    rcases hs.lower with h0 | ⟨pkt, hp, he⟩
    · omega
    · exact he ▸ (fecData_length (hpkt pkt hp)).2
  have hpos : 0 < x.maxlen := by
    have hne : l ≠ [] := by
      rintro rfl
      have h1 := hl.enough
      have h2 := h.data
      simp only [List.length_nil] at h1
      omega
    obtain ⟨pkt, hp⟩ := List.exists_mem_of_ne_nil l hne
    have h1 := hs.upper pkt (List.mem_reverse.mpr hp)
    have h2 := (fecData_length (hl.pkts pkt hp)).1
    omega
  refine ⟨x, hs, ?_, hpos, Go.mapM_ok fun o _ => fillUp_ok hmax o⟩
  rw [recover, if_neg (by rw [h.flagCache, h.decodeCache]; omega), hx]
  rfl

theorem padded_length {x : Popped} (hs : PopSpec dec l x) {o : Option Bytes} (ho : o ∈ x.shards) :
    padded x.maxlen o = [] ∨ (padded x.maxlen o).length = x.maxlen := by
  cases o with
  | none => exact .inl rfl
  | some s =>
    obtain ⟨pkt, hp, rfl⟩ := hs.mem ho
    have := hs.upper pkt hp
    right
    simp only [padded, List.length_append, List.length_replicate]
    omega

/-- As many shards are there as packets were. -/
theorem present_padded {x : Popped} (hs : PopSpec dec l x) (h0 : 0 < x.maxlen) :
    Codec.present (x.shards.map (padded x.maxlen)) = l.length := by
  rw [Codec.present, List.countP_map, ← hs.count]
  refine List.countP_congr fun o ho => ?_
  cases o with
  | none => simp [padded]
  | some s =>
    have hne : padded x.maxlen (some s) ≠ [] := by
      intro he
      have := congrArg List.length he
      simp only [padded, List.length_append, List.length_replicate, List.length_nil] at this
      omega
    simp [hne]

theorem recover_ok (h : Shape lib dec) (ht : lib.Total) (hl : Full dec id l) :
    ∃ r, dec.recover l = .ok r := by
  obtain ⟨x, hs, he, h0, hfill⟩ := recover_pop h hl
  rw [he, reconstruct]
  split
  · exact ⟨_, rfl⟩
  obtain ⟨out, hout, -⟩ := ht _ _ _ h.codec x.maxlen (x.shards.map (padded x.maxlen))
    (by rw [List.length_map, hs.length, h.decodeCache, h.size])
    (fun s hm => by
      obtain ⟨o, ho, rfl⟩ := List.mem_map.mp hm
      exact padded_length hs ho)
    (by rw [present_padded hs h0, List.length_reverse]; exact hl.enough)
  rw [hfill, Go.ok_bind, hout, Go.ok_bind]
  cases out with
  | none => exact ⟨_, rfl⟩
  | some out =>
    refine ⟨_, if_neg ?_⟩
    have := h.decodeCache
    have := h.size
    omega

/-- A packet that enters a full set leaves it ready for recovery. -/
theorem Inv.full (h : Inv lib dec) {bts : Bytes} (hp : seqid bts < dec.paws) (hf : flag bts = dec.expected (seqid bts))
    (hh : ((dec.shardSet.lookup (dec.getShardId (seqid bts))).getD .empty).has (seqid bts) = false)
    (hmin : fecHeaderSizePlus2 ≤ bts.length) (hn : bts.length ≤ maxPacketSize)
    (hl : dec.dataShards ≤ (dec.pushed bts).elements.length) :
    Full dec (dec.getShardId (seqid bts)) (dec.pushed bts).elements := by
  obtain ⟨-, h2, h3, -⟩ := pushed_ok h hp hf hh hmin hn
  exact ⟨h3, h2, hl⟩

/-- A call panics only in the recovery. -/
theorem decode_returns (h : Inv lib dec) {bts : Bytes} (hmin : fecHeaderSizePlus2 ≤ bts.length)
    (hmax : bts.length ≤ maxPacketSize) (hrec : Full dec (dec.getShardId (seqid bts)) (dec.pushed bts).elements →
      (dec.pushed bts).elements.length ≤ dec.dataShards → ∃ r, dec.recover (dec.pushed bts).elements = .ok r) :
        ∃ r, dec.decode lib bts = .ok r := by
  have h6 : ¬ bts.length < fecHeaderSize := by
    unfold fecHeaderSizePlus2 at hmin
    unfold fecHeaderSize
    omega
  have hz : ¬ UInt32.ofNat (dec.sampled bts).shardSize = 0 := by
    intro he
    have : (UInt32.ofNat dec.shardSize).toNat = 0 := congrArg UInt32.toNat he
    rw [toNat_ofNat_small h.le] at this
    have := h.data
    have := h.size
    omega
  rw [decode, if_neg h6]
  dsimp only
  by_cases hp : (dec.sampled bts).paws ≤ seqid bts
  · exact ⟨_, if_pos hp⟩
  rw [if_neg hp, if_neg hz]
  by_cases hst : ((dec.sampled bts).checked bts).shouldTune = true
  · exact ⟨_, if_pos hst⟩
  rw [if_neg hst]
  obtain ⟨he, -, hf⟩ := checked_eq (Bool.eq_false_iff.mpr hst)
  rw [he, receive]
  dsimp only
  split
  · exact ⟨_, rfl⟩
  rename_i hh
  rw [if_neg (Nat.not_lt.mpr hmax)]
  split
  · exact ⟨_, rfl⟩
  rename_i hl
  have hl' : dec.dataShards ≤ (dec.pushed bts).elements.length := by
    obtain ⟨n, hn⟩ := updateNewest_eq { dec.sampled bts with
      shardSet := dec.shardSet.insert (dec.getShardId (seqid bts)) (dec.pushed bts) } (dec.getShardId (seqid bts))
    have := congrArg dataShards hn
    exact Nat.not_lt.mp fun hlt => hl (Nat.lt_of_lt_of_eq hlt this.symm)
  have hfull := h.full (UInt32.not_le.mp hp) hf (Bool.eq_false_iff.mpr hh) hmin hmax hl'
  have hle := (pushed_ok h (UInt32.not_le.mp hp) hf (Bool.eq_false_iff.mpr hh) hmin hmax).2.2.2
  obtain ⟨r, hr⟩ := hrec hfull hle
  have hup := recover_updateNewest { dec.sampled bts with
      shardSet := dec.shardSet.insert (dec.getShardId (seqid bts)) (dec.pushed bts) } (dec.getShardId (seqid bts))
    (dec.pushed bts).elements
  exact ⟨_, by erw [hup, hr]; rfl⟩

/-- **No call panics.** -/
theorem decode_ok (h : Inv lib dec) (ht : lib.Total) {bts : Bytes} (hmin : fecHeaderSizePlus2 ≤ bts.length)
    (hmax : bts.length ≤ maxPacketSize) : ∃ r, dec.decode lib bts = .ok r :=
  decode_returns h hmin hmax fun hl _ => recover_ok h.toShape ht hl

/-! ## What is recovered -/

/-- The packets are shards of the code word of `ds`, those of parity at full length. -/
structure Shards (dec : FecDecoder) (parity : List Bytes → List Bytes) (ds : List Bytes) (n : Nat)
    (l : List Bytes) : Prop where
  length : ds.length = dec.dataShards
  pos : 0 < n
  uniform : Codec.Uniform n ds
  word : ∀ pkt ∈ l, (ds ++ parity ds)[dec.pos pkt]? = some (fecData pkt ++ List.replicate (n - (fecData pkt).length) 0)
  le : ∀ pkt ∈ l, (fecData pkt).length ≤ n
  full : ∀ pkt ∈ l, dec.dataShards ≤ dec.pos pkt → (fecData pkt).length = n

/-- The places of the data shards that are not among the packets. -/
def absent (dec : FecDecoder) (l : List Bytes) : List Nat :=
  (List.range dec.dataShards).filter fun i => decide (∀ pkt ∈ l, dec.pos pkt ≠ i)

theorem zip_take {d : Nat} {a : List (Option Bytes)} {b : List Bytes} (ha : d ≤ a.length) (hb : d ≤ b.length) :
    (a.zip b).take d = (List.range d).map fun i => (a.getD i none, b.getD i []) := by
  refine List.ext_getElem? fun i => ?_
  by_cases hi : i < d
  · have h1 : i < a.length := by omega
    have h2 : i < b.length := by omega
    simp [hi, h1, h2]
  · simp [hi]

theorem filterMap_ite {α β : Type} (p : α → Bool) (f : α → β) (l : List α) :
    (l.filterMap fun i => if p i then some (f i) else none) = (l.filter p).map f := by
  induction l with
  | nil => rfl
  | cons a l ih =>
    rw [List.filterMap_cons, List.filter_cons]
    split <;> simp_all

theorem missing_eq {x : Popped} (hs : PopSpec dec l x) (hd : dec.dataShards ≤ dec.decodeCache)
    {out : List Bytes} (hout : dec.dataShards ≤ out.length) :
    missing dec.dataShards x.shards out = (dec.absent l).map fun i => out.getD i [] := by
  have hlen : dec.dataShards ≤ x.shards.length := hs.length ▸ hd
  rw [missing, zip_take hlen hout, List.filterMap_map, absent, ← filterMap_ite]
  refine List.filterMap_congr fun i hi => ?_
  have hi' : i < dec.dataShards := List.mem_range.mp hi
  have hnone : (x.shards.getD i none).isNone = decide (∀ pkt ∈ l, dec.pos pkt ≠ i) := by
    by_cases hex : ∀ pkt ∈ l, dec.pos pkt ≠ i
    · rw [decide_eq_true hex, List.getD_eq_getElem?_getD, hs.free i (by omega) hex]
      rfl
    · rw [decide_eq_false hex]
      simp only [not_forall, not_not] at hex
      obtain ⟨pkt, hp, rfl⟩ := hex
      rw [List.getD_eq_getElem?_getD, hs.put pkt hp]
      rfl
  show (if (x.shards.getD i none).isNone then some (out.getD i []) else none) = _
  rw [hnone]

/-- Shards of one code word in the cache are an erasure of it. -/
theorem Shards.erasure {parity : List Bytes → List Bytes} {ds : List Bytes} {n : Nat} {x : Popped}
    (h : Shape lib dec) (hw : Shards dec parity ds n l) (hs : PopSpec dec l x) (hn : x.maxlen = n)
    (hpar : (parity ds).length = dec.parityShards) :
    Codec.Erasure (ds ++ parity ds) (x.shards.map (padded x.maxlen)) := by
  have hlen : (ds ++ parity ds).length = dec.decodeCache := by
    rw [List.length_append, hw.length, hpar, h.decodeCache, h.size]
  refine ⟨by rw [List.length_map, hs.length, hlen], fun i => ?_⟩
  rw [List.getElem?_map]
  by_cases hi : i < dec.decodeCache
  · by_cases hex : ∀ pkt ∈ l, dec.pos pkt ≠ i
    · rw [hs.free i hi hex]
      exact .inr rfl
    · simp only [not_forall, not_not] at hex
      obtain ⟨pkt, hp, rfl⟩ := hex
      rw [hs.put pkt hp, hw.word pkt hp, hn]
      exact .inl rfl
  · left
    rw [List.getElem?_eq_none (by rw [hs.length]; omega), List.getElem?_eq_none (by rw [hlen]; omega)]
    rfl

/-- With data shards only, nothing is missing. -/
theorem absent_of_data (h : Shape lib dec) (hl : Full dec id l)
    (hdata : l.countP (fun pkt => flag pkt = typeData) = dec.dataShards) : dec.absent l = [] := by
  have hpkt : ∀ pkt ∈ l.filter (fun pkt => decide (flag pkt = typeData)), pkt ∈ l ∧ dec.pos pkt < dec.dataShards := by
    intro pkt hp
    obtain ⟨hp, hf⟩ := List.mem_filter.mp hp
    exact ⟨hp, (flag_data_iff h (hl.pkts pkt hp)).mp (of_decide_eq_true hf)⟩
  have hnd : ((l.filter fun pkt => decide (flag pkt = typeData)).map dec.pos).Nodup :=
    (pos_nodup h hl.pkts hl.nodup).sublist (List.filter_sublist.map _)
  have hsub : (l.filter fun pkt => decide (flag pkt = typeData)).map dec.pos ⊆ List.range dec.dataShards := by
    intro i hi
    obtain ⟨pkt, hp, rfl⟩ := List.mem_map.mp hi
    exact List.mem_range.mpr (hpkt pkt hp).2
  -- as many distinct places as there are
  have hperm : ((l.filter fun pkt => decide (flag pkt = typeData)).map dec.pos).Perm (List.range dec.dataShards) := by
    refine (List.subperm_of_subset hnd hsub).perm_of_length_le ?_
    rw [List.length_range, List.length_map, ← List.countP_eq_length_filter, hdata]
  rw [absent, List.filter_eq_nil_iff]
  intro i hi
  obtain ⟨pkt, hp, rfl⟩ := List.mem_map.mp (hperm.symm.subset hi)
  rw [decide_eq_true_iff]
  exact fun hno => hno pkt (hpkt pkt hp).1 rfl

/-- **Recovery.** From packets of one code word, at least as many as there
are data shards, exactly the absent data shards come back, in order. -/
theorem recover_eq (h : Shape lib dec) {parity : List Bytes → List Bytes}
    (hm : dec.codec.MDS dec.dataShards dec.parityShards parity) (hl : Full dec id l)
    (hlen : l.length = dec.dataShards) {ds : List Bytes} {n : Nat} (hw : Shards dec parity ds n l) :
    dec.recover l = .ok ((dec.absent l).map fun i => ds.getD i []) := by
  obtain ⟨x, hs, he, h0, hfill⟩ := recover_pop h hl
  have hcount : x.numDataShard = l.countP fun pkt => flag pkt = typeData := by
    rw [hs.data, List.countP_reverse]
  rw [he, reconstruct]
  split
  · rename_i hall
    rw [absent_of_data h hl (hcount.symm.trans hall)]
    rfl
  rename_i hsome
  -- some packet is parity, so the cache has the length of the code word
  have hmax : x.maxlen = n := by
    have hpar : ∃ pkt ∈ l, ¬ flag pkt = typeData := by
      by_contra hno
      simp only [not_exists, not_and, not_not] at hno
      refine hsome (hcount.trans ?_)
      rw [← hlen, List.countP_eq_length]
      exact fun pkt hp => decide_eq_true (hno pkt hp)
    obtain ⟨pkt, hp, hf⟩ := hpar
    have hge : dec.dataShards ≤ dec.pos pkt := Nat.not_lt.mp fun hlt => hf ((flag_data_iff h (hl.pkts pkt hp)).mpr hlt)
    refine Nat.le_antisymm ?_ ?_
    · rcases hs.lower with hz | ⟨a, ha, ha'⟩
      · omega
      · rw [ha']
        exact hw.le a (List.mem_reverse.mp ha)
    · rw [← hw.full pkt hp hge]
      exact hs.upper pkt (List.mem_reverse.mpr hp)
  have hw' : Shards dec parity ds n l.reverse :=
    ⟨hw.length, hw.pos, hw.uniform, fun p hp => hw.word p (List.mem_reverse.mp hp),
      fun p hp => hw.le p (List.mem_reverse.mp hp), fun p hp => hw.full p (List.mem_reverse.mp hp)⟩
  obtain ⟨out, hout, holen, htake⟩ := hm.reconstruct n ds (x.shards.map (padded x.maxlen)) hw.pos hw.length hw.uniform
    (hw'.erasure h hs hmax (hm.length ds hw.length))
    (by rw [present_padded hs h0, List.length_reverse]; exact hl.enough)
  have hd : dec.dataShards ≤ dec.decodeCache := by
    have := h.decodeCache
    have := h.size
    omega
  rw [hfill, Go.ok_bind, hout, Go.ok_bind]
  dsimp only
  rw [if_neg (Nat.not_lt.mpr hd), missing_eq hs hd (by omega)]
  have habs : dec.absent l.reverse = dec.absent l := by
    simp only [absent, List.mem_reverse]
  rw [habs]
  congr 1
  refine List.map_congr_left fun i hi => ?_
  have hi' : i < dec.dataShards := List.mem_range.mp (List.mem_of_mem_filter hi)
  rw [← htake, List.getD_eq_getElem?_getD, List.getD_eq_getElem?_getD, List.getElem?_take_of_lt hi']

end

end FecDecoder
end KcpGo.L2
