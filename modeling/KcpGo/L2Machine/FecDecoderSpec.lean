import KcpGo.L2Machine.FecDecoder

/-!
# What one `decode` does

* `decode_cases`: a call rejects, tunes, finds a repeat, or inserts; an
  insertion that fills its set empties it.
* `Shape`, `SetOk`, `Inv`: the shard counts and everything computed from them
  agree, and every set is below the threshold, its marks are its packets'
  ids, and its packets have the type of their position. `decode_inv`: every
  call keeps this.
-/
namespace KcpGo.L2

open KcpGo.L1 KcpGo.Serial

/-- `reedsolomon.New` accepts every pair of positive counts up to 256 in sum. -/
def Lib.Makes (lib : Lib) : Prop :=
  ∀ d p, 0 < d → 0 < p → d + p ≤ 256 → ∃ c, lib.newCodec d p = some c

/-- One data shard, parity by repetition. -/
def copies : Lib := ⟨AutoTune.insertionSort, fun _ _ => some Codec.repetition⟩

/-- Two data shards, parity by exclusive or: an MDS code for concrete runs, with other
coefficients than the matrix of `reedsolomon.New(2, 1)`. -/
def xors : Lib := ⟨AutoTune.insertionSort, fun _ _ => some Codec.xorPair⟩

namespace FecDecoder

/-- The counts, and what is computed from them. -/
structure Shape (lib : Lib) (dec : FecDecoder) : Prop where
  data : 0 < dec.dataShards
  parity : 0 < dec.parityShards
  size : dec.shardSize = dec.dataShards + dec.parityShards
  le : dec.shardSize ≤ 256
  paws : dec.paws = pawsOf dec.shardSize
  decodeCache : dec.decodeCache = dec.shardSize
  flagCache : dec.flagCache = dec.shardSize
  codec : lib.newCodec dec.dataShards dec.parityShards = some dec.codec

/-- A packet in the set `id`. -/
structure PktOk (dec : FecDecoder) (id : UInt32) (pkt : Bytes) : Prop where
  lt : seqid pkt < dec.paws
  set : dec.getShardId (seqid pkt) = id
  type : flag pkt = dec.expected (seqid pkt)
  lower : fecHeaderSizePlus2 ≤ pkt.length
  upper : pkt.length ≤ maxPacketSize

structure SetOk (dec : FecDecoder) (id : UInt32) (h : ShardHeap) : Prop where
  few : h.elements.length < dec.dataShards
  marks : h.marks = (h.elements.map seqid).toFinset
  nodup : (h.elements.map seqid).Nodup
  pkts : ∀ pkt ∈ h.elements, PktOk dec id pkt

/-- The sets, and where they may start. -/
structure Inv (lib : Lib) (dec : FecDecoder) : Prop extends Shape lib dec where
  sets : ∀ id h, dec.shardSet.lookup id = some h → SetOk dec id h
  starts : ∀ id ∈ dec.shardSet.keys, id.toNat * dec.shardSize < dec.paws.toNat

/-! ## The four outcomes -/

/-- The set the packet enters, with the packet. -/
def pushed (dec : FecDecoder) (bts : Bytes) : ShardHeap :=
  ((dec.shardSet.lookup (dec.getShardId (seqid bts))).getD .empty).push bts

/-- The decoder after the insertion, before old sets go. -/
def inserted (dec : FecDecoder) (bts : Bytes) : FecDecoder :=
  { dec with shardSet := dec.shardSet.insert (dec.getShardId (seqid bts)) (dec.pushed bts) }.updateNewest
    (dec.getShardId (seqid bts))

/-- The decoder after the packet that completed its set. -/
def emptied (dec : FecDecoder) (bts : Bytes) : FecDecoder :=
  { dec.inserted bts with
    shardSet := (dec.inserted bts).shardSet.insert (dec.getShardId (seqid bts)) (dec.pushed bts).drain }

inductive Outcome (lib : Lib) (dec : FecDecoder) (bts : Bytes) : FecDecoder → List Bytes → Prop where
  | rejected (h : dec.paws ≤ seqid bts) : Outcome lib dec bts (dec.sampled bts) []
  | tuned (hp : seqid bts < dec.paws) (ht : ((dec.sampled bts).checked bts).shouldTune = true) :
    Outcome lib dec bts (((dec.sampled bts).checked bts).tune lib (seqid bts)) []
  | repeated (hp : seqid bts < dec.paws) (ht : dec.shouldTune = false) (hf : flag bts = dec.expected (seqid bts))
    (hh : ((dec.shardSet.lookup (dec.getShardId (seqid bts))).getD .empty).has (seqid bts) = true) :
    Outcome lib dec bts (dec.sampled bts) []
  | stored (hp : seqid bts < dec.paws) (ht : dec.shouldTune = false) (hf : flag bts = dec.expected (seqid bts))
    (hh : ((dec.shardSet.lookup (dec.getShardId (seqid bts))).getD .empty).has (seqid bts) = false)
    (hn : bts.length ≤ maxPacketSize) (hl : (dec.pushed bts).elements.length < dec.dataShards) :
    Outcome lib dec bts ((dec.sampled bts).inserted bts).discardShards []
  | completed {r : List Bytes} (hp : seqid bts < dec.paws) (ht : dec.shouldTune = false)
    (hf : flag bts = dec.expected (seqid bts))
    (hh : ((dec.shardSet.lookup (dec.getShardId (seqid bts))).getD .empty).has (seqid bts) = false)
    (hn : bts.length ≤ maxPacketSize) (hl : dec.dataShards ≤ (dec.pushed bts).elements.length)
    (hr : dec.recover (dec.pushed bts).elements = .ok r) :
    Outcome lib dec bts ((dec.sampled bts).emptied bts).discardShards r

theorem updateNewest_eq (dec : FecDecoder) (id : UInt32) :
    ∃ n, dec.updateNewest id = { dec with newestShardId := n } := by
  unfold updateNewest
  split
  · exact ⟨_, rfl⟩
  · exact ⟨dec.newestShardId, rfl⟩

theorem updateNewest_newest (dec : FecDecoder) (id : UInt32) : (dec.updateNewest id).newestShardId =
    if 0 < itimediff (dec.start id) (dec.start dec.newestShardId) then id else dec.newestShardId := by
  unfold updateNewest
  split <;> rfl

/-- Recovery reads the counts, the caches and the codec only. -/
theorem recover_updateNewest (dec : FecDecoder) (id : UInt32) (l : List Bytes) :
    (dec.updateNewest id).recover l = dec.recover l := by
  obtain ⟨n, he⟩ := updateNewest_eq dec id
  rw [he]
  rfl

theorem checked_eq {dec : FecDecoder} {bts : Bytes} (h : (dec.checked bts).shouldTune = false) :
    dec.checked bts = dec ∧ dec.shouldTune = false ∧ flag bts = dec.expected (seqid bts) := by
  unfold checked at h ⊢
  split at h
  · rename_i hf
    rw [if_pos hf]
    exact ⟨rfl, h, hf⟩
  · cases h

/-- **One call.** -/
theorem decode_cases {lib : Lib} {dec dec' : FecDecoder} {bts : Bytes} {r : List Bytes}
    (h : dec.decode lib bts = .ok (dec', r)) : Outcome lib dec bts dec' r := by
  unfold decode at h
  split at h
  · cases h
  dsimp only at h
  split at h
  · rename_i hp
    cases h
    exact .rejected hp
  rename_i hp
  have hlt : seqid bts < dec.paws := UInt32.not_le.mp hp
  split at h
  · cases h
  split at h
  · rename_i ht
    cases h
    exact .tuned hlt ht
  rename_i ht
  obtain ⟨he, ht', hf⟩ := checked_eq (Bool.eq_false_iff.mpr ht)
  rw [he] at h
  unfold receive at h
  dsimp only at h
  split at h
  · rename_i hh
    cases h
    exact .repeated hlt ht' hf hh
  rename_i hh
  split at h
  · cases h
  rename_i hn
  have hds : ∀ d : FecDecoder, ∀ id, (d.updateNewest id).dataShards = d.dataShards := by
    intro d id
    obtain ⟨n, he⟩ := updateNewest_eq d id
    rw [he]
  split at h
  · rename_i hl
    cases h
    rw [hds] at hl
    exact .stored hlt ht' hf (Bool.eq_false_iff.mpr hh) (Nat.not_lt.mp hn) hl
  · rename_i hl
    obtain ⟨rec, hr, h⟩ := Go.bind_ok h
    cases h
    rw [hds] at hl
    refine .completed hlt ht' hf (Bool.eq_false_iff.mpr hh) (Nat.not_lt.mp hn) (Nat.not_lt.mp hl) ?_
    rw [recover_updateNewest] at hr
    exact hr

/-! ## The invariant -/

section
variable {lib : Lib} {dec dec' : FecDecoder}

/-- The decoders agree on the counts and what is computed from them. -/
structure SameShape (dec dec' : FecDecoder) : Prop where
  data : dec'.dataShards = dec.dataShards
  parity : dec'.parityShards = dec.parityShards
  size : dec'.shardSize = dec.shardSize
  paws : dec'.paws = dec.paws
  decodeCache : dec'.decodeCache = dec.decodeCache
  flagCache : dec'.flagCache = dec.flagCache
  codec : dec'.codec = dec.codec

theorem SameShape.shape (h : SameShape dec dec') (hs : Shape lib dec) : Shape lib dec' where
  data := h.data ▸ hs.data
  parity := h.parity ▸ hs.parity
  size := by rw [h.size, h.data, h.parity, hs.size]
  le := h.size ▸ hs.le
  paws := by rw [h.paws, h.size, hs.paws]
  decodeCache := by rw [h.decodeCache, h.size, hs.decodeCache]
  flagCache := by rw [h.flagCache, h.size, hs.flagCache]
  codec := by rw [h.data, h.parity, h.codec, hs.codec]

theorem SameShape.pktOk (h : SameShape dec dec') {id : UInt32} {pkt : Bytes} (hp : PktOk dec id pkt) :
    PktOk dec' id pkt where
  lt := h.paws ▸ hp.lt
  set := by rw [getShardId, h.size]; exact hp.set
  type := by rw [expected, h.size, h.data]; exact hp.type
  lower := hp.lower
  upper := hp.upper

theorem SameShape.setOk (h : SameShape dec dec') {id : UInt32} {s : ShardHeap} (hs : SetOk dec id s) :
    SetOk dec' id s where
  few := h.data ▸ hs.few
  marks := hs.marks
  nodup := hs.nodup
  pkts pkt hp := h.pktOk (hs.pkts pkt hp)

theorem SameShape.trans {d₁ d₂ d₃ : FecDecoder} (h : SameShape d₁ d₂) (h' : SameShape d₂ d₃) : SameShape d₁ d₃ :=
  ⟨h'.data.trans h.data, h'.parity.trans h.parity, h'.size.trans h.size, h'.paws.trans h.paws,
    h'.decodeCache.trans h.decodeCache, h'.flagCache.trans h.flagCache, h'.codec.trans h.codec⟩

theorem sampled_same (bts : Bytes) : SameShape dec (dec.sampled bts) := ⟨rfl, rfl, rfl, rfl, rfl, rfl, rfl⟩

theorem checked_same (bts : Bytes) : SameShape dec (dec.checked bts) := by
  unfold checked
  split <;> exact ⟨rfl, rfl, rfl, rfl, rfl, rfl, rfl⟩

theorem checked_sets (bts : Bytes) : (dec.checked bts).shardSet = dec.shardSet := by
  unfold checked
  split <;> rfl

theorem inserted_same (bts : Bytes) : SameShape dec (dec.inserted bts) := by
  unfold inserted updateNewest
  split <;> exact ⟨rfl, rfl, rfl, rfl, rfl, rfl, rfl⟩

theorem inserted_sets (bts : Bytes) :
    (dec.inserted bts).shardSet = dec.shardSet.insert (dec.getShardId (seqid bts)) (dec.pushed bts) := by
  unfold inserted updateNewest
  split <;> rfl

theorem emptied_same (bts : Bytes) : SameShape dec (dec.emptied bts) := by
  have h := @inserted_same dec bts
  exact ⟨h.data, h.parity, h.size, h.paws, h.decodeCache, h.flagCache, h.codec⟩

theorem emptied_sets (bts : Bytes) :
    (dec.emptied bts).shardSet = dec.shardSet.insert (dec.getShardId (seqid bts)) (dec.pushed bts).drain := by
  show (dec.inserted bts).shardSet.insert _ _ = _
  rw [inserted_sets, AList.insert_insert]

theorem discardShards_same : SameShape dec dec.discardShards := ⟨rfl, rfl, rfl, rfl, rfl, rfl, rfl⟩

theorem Inv.of_sets (h : Inv lib dec) (hs : SameShape dec dec')
    (hset : ∀ id x, dec'.shardSet.lookup id = some x → SetOk dec id x)
    (hst : ∀ id ∈ dec'.shardSet.keys, id.toNat * dec.shardSize < dec.paws.toNat) : Inv lib dec' where
  toShape := hs.shape h.toShape
  sets id x hx := hs.setOk (hset id x hx)
  starts id hid := by
    rw [hs.size, hs.paws]
    exact hst id hid

theorem Inv.discard (h : Inv lib dec) : Inv lib dec.discardShards := by
  refine h.of_sets discardShards_same (fun id x hx => ?_) fun id hid => ?_
  · have := Table.lookup_keep dec.shardSet (fun id => !dec.stale id) id
    rw [discardShards, this] at hx
    split at hx
    · exact h.sets id x hx
    · cases hx
  · rw [discardShards, Table.keys_keep] at hid
    exact h.starts id (List.mem_of_mem_filter hid)

/-- The set of an accepted packet starts below `paws`. -/
theorem start_lt (h : Shape lib dec) {id : UInt32} (hp : id < dec.paws) :
    (dec.getShardId id).toNat * dec.shardSize < dec.paws.toNat := by
  have hle : id.toNat / dec.shardSize * dec.shardSize ≤ id.toNat := Nat.div_mul_le_self _ _
  rw [getShardId, UInt32.toNat_div, toNat_ofNat_small h.le]
  exact Nat.lt_of_le_of_lt hle (UInt32.lt_iff_toNat_lt.mp hp)

theorem Inv.put (h : Inv lib dec) (hs : SameShape dec dec') {id : UInt32} {x : ShardHeap}
    (hx : SetOk dec id x) (hid : id.toNat * dec.shardSize < dec.paws.toNat)
    (he : dec'.shardSet = dec.shardSet.insert id x) : Inv lib dec' := by
  refine h.of_sets hs (fun id' y hy => ?_) fun id' hid' => ?_
  · rw [he] at hy
    by_cases hne : id' = id
    · subst hne
      rw [AList.lookup_insert] at hy
      cases hy
      exact hx
    · rw [AList.lookup_insert_ne hne] at hy
      exact h.sets id' y hy
  · rw [he, ← AList.mem_keys, AList.mem_insert] at hid'
    rcases hid' with rfl | hid'
    · exact hid
    · exact h.starts id' (AList.mem_keys.mp hid')

/-- The packets of the set a packet enters. -/
theorem Inv.entered (h : Inv lib dec) (id : UInt32) : SetOk dec id ((dec.shardSet.lookup id).getD .empty) := by
  cases hl : dec.shardSet.lookup id with
  | some x => exact h.sets id x hl
  | none => exact ⟨h.data, rfl, by simp [ShardHeap.empty], by simp [ShardHeap.empty]⟩

/-- The set with a new packet of the right type, whether or not it is full. -/
theorem pushed_ok (h : Inv lib dec) {bts : Bytes} (hp : seqid bts < dec.paws) (hf : flag bts = dec.expected (seqid bts))
    (hh : ((dec.shardSet.lookup (dec.getShardId (seqid bts))).getD .empty).has (seqid bts) = false)
    (hmin : fecHeaderSizePlus2 ≤ bts.length) (hn : bts.length ≤ maxPacketSize) :
    (dec.pushed bts).marks = ((dec.pushed bts).elements.map seqid).toFinset ∧
      ((dec.pushed bts).elements.map seqid).Nodup ∧
      (∀ pkt ∈ (dec.pushed bts).elements, PktOk dec (dec.getShardId (seqid bts)) pkt) ∧
      (dec.pushed bts).elements.length ≤ dec.dataShards := by
  have hold := h.entered (dec.getShardId (seqid bts))
  unfold pushed
  generalize (dec.shardSet.lookup (dec.getShardId (seqid bts))).getD .empty = x at hh hold ⊢
  have hnew : seqid bts ∉ x.elements.map seqid := by
    rw [← List.mem_toFinset, ← hold.marks]
    simpa [ShardHeap.has] using hh
  refine ⟨?_, ?_, ?_, ?_⟩
  · ext a
    simp [ShardHeap.push, hold.marks]
  · simp only [ShardHeap.push, List.map_append, List.map_cons, List.map_nil, List.nodup_append,
      List.nodup_singleton, true_and]
    exact ⟨hold.nodup, fun a ha b hb => by
      rw [List.mem_singleton] at hb
      rintro rfl
      exact hnew (hb ▸ ha)⟩
  · intro pkt hpkt
    rcases List.mem_append.mp hpkt with hpkt | hpkt
    · exact hold.pkts pkt hpkt
    · rw [List.mem_singleton] at hpkt
      subst hpkt
      exact ⟨hp, rfl, hf, hmin, hn⟩
  · have := hold.few
    simp only [ShardHeap.push, List.length_append, List.length_singleton]
    omega

theorem mem_erase_all (l : List Bytes) (m : Finset UInt32) (a : UInt32) :
    a ∈ l.foldr (fun pkt m => m.erase (seqid pkt)) m ↔ a ∈ m ∧ a ∉ l.map seqid := by
  induction l with
  | nil => simp
  | cons pkt l ih =>
    rw [List.foldr_cons, Finset.mem_erase, ih, List.map_cons, List.mem_cons]
    tauto

theorem drain_ok {x : ShardHeap} (hd : 0 < dec.dataShards) (hm : x.marks = (x.elements.map seqid).toFinset)
    (id : UInt32) : SetOk dec id x.drain := by
  refine ⟨hd, ?_, List.nodup_nil, fun pkt hp => absurd hp List.not_mem_nil⟩
  ext a
  show a ∈ x.elements.foldr _ x.marks ↔ _
  rw [mem_erase_all, hm, List.mem_toFinset]
  simp [ShardHeap.drain]

/-- A tuning attempt touches the flag only, or sets the widths it found. -/
theorem tune_cases (lib : Lib) (dec : FecDecoder) (id : UInt32) :
    (∃ b, dec.tune lib id = { dec with shouldTune := b }) ∨
    ∃ ds ps : Nat, 0 < ds ∧ 0 < ps ∧ ds + ps ≤ 256 ∧ dec.autoTune.findPeriod lib.sort true = ds ∧
      dec.autoTune.findPeriod lib.sort false = ps ∧ dec.tune lib id = dec.retune lib ds ps id := by
  unfold tune
  dsimp only
  split
  · rename_i hv
    split
    · refine .inr ⟨_, _, by omega, by omega, by omega, ?_, ?_, rfl⟩
      · omega
      · omega
    · exact .inl ⟨false, rfl⟩
  · exact .inl ⟨dec.shouldTune, rfl⟩

theorem retune_inv (hm : lib.Makes) {ds ps : Nat} (hd : 0 < ds) (hp : 0 < ps) (hle : ds + ps ≤ 256) (dec : FecDecoder)
    (id : UInt32) : Inv lib (dec.retune lib ds ps id) := by
  obtain ⟨c, hc⟩ := hm ds ps hd hp hle
  simp only [retune, hc]
  refine ⟨⟨hd, hp, rfl, hle, rfl, rfl, rfl, hc⟩, fun id x hx => ?_, fun id hid => ?_⟩
  · simp at hx
  · simp at hid

theorem Inv.tune (h : Inv lib dec) (hm : lib.Makes) (id : UInt32) : Inv lib (dec.tune lib id) := by
  rcases tune_cases lib dec id with ⟨b, he⟩ | ⟨ds, ps, hd, hp, hle, -, -, he⟩
  · rw [he]
    exact h.of_sets ⟨rfl, rfl, rfl, rfl, rfl, rfl, rfl⟩ h.sets h.starts
  · rw [he]
    exact retune_inv hm hd hp hle dec id

theorem Inv.sampled (h : Inv lib dec) (bts : Bytes) : Inv lib (dec.sampled bts) :=
  h.of_sets (sampled_same bts) h.sets h.starts

section
variable {bts : Bytes} (hp : seqid bts < dec.paws) (hf : flag bts = dec.expected (seqid bts))
  (hh : ((dec.shardSet.lookup (dec.getShardId (seqid bts))).getD .empty).has (seqid bts) = false)
  (hmin : fecHeaderSizePlus2 ≤ bts.length) (hn : bts.length ≤ maxPacketSize)
include hp hf hh hmin hn

theorem Inv.inserted (h : Inv lib dec) (hl : (dec.pushed bts).elements.length < dec.dataShards) :
    Inv lib ((dec.sampled bts).inserted bts) := by
  obtain ⟨h1, h2, h3, -⟩ := pushed_ok h hp hf hh hmin hn
  have hx : SetOk dec (dec.getShardId (seqid bts)) (dec.pushed bts) := ⟨hl, h1, h2, h3⟩
  exact h.put ((sampled_same bts).trans (inserted_same bts)) hx (start_lt h.toShape hp) (inserted_sets bts)

theorem Inv.emptied (h : Inv lib dec) : Inv lib ((dec.sampled bts).emptied bts) := by
  obtain ⟨h1, -, -, -⟩ := pushed_ok h hp hf hh hmin hn
  have hx : SetOk dec (dec.getShardId (seqid bts)) (dec.pushed bts).drain := drain_ok h.data h1 _
  exact h.put ((sampled_same bts).trans (emptied_same bts)) hx (start_lt h.toShape hp) (emptied_sets bts)

end

theorem Outcome.inv {bts : Bytes} {r : List Bytes} (ho : Outcome lib dec bts dec' r)
    (hmin : fecHeaderSizePlus2 ≤ bts.length)
    (hm : lib.Makes) (h : Inv lib dec) : Inv lib dec' := by
  cases ho with
  | rejected _ => exact h.sampled bts
  | tuned _ _ =>
    have hc : Inv lib ((dec.sampled bts).checked bts) := by
      have hsets := @checked_sets (dec.sampled bts) bts
      exact (h.sampled bts).of_sets (checked_same bts) (hsets ▸ (h.sampled bts).sets)
        (hsets ▸ (h.sampled bts).starts)
    exact hc.tune hm _
  | repeated _ _ _ _ => exact h.sampled bts
  | stored hp _ hf hh hn hl => exact (h.inserted hp hf hh hmin hn hl).discard
  | completed hp _ hf hh hn _ _ => exact (h.emptied hp hf hh hmin hn).discard

/-- **Every call keeps the sets in order.** -/
theorem decode_inv (hm : lib.Makes) {bts : Bytes} {r : List Bytes} (hmin : fecHeaderSizePlus2 ≤ bts.length)
    (hd : dec.decode lib bts = .ok (dec', r)) (h : Inv lib dec) : Inv lib dec' :=
  (decode_cases hd).inv hmin hm h

theorem newFECDecoder_inv {d p : Nat} (h : newFECDecoder lib d p = some dec) : Inv lib dec ∧ dec.dataShards = d ∧
    dec.parityShards = p ∧ dec.shardSet = ∅ ∧ dec.newestShardId = 0 ∧ dec.autoTune = .empty ∧
      dec.shouldTune = false := by
  unfold newFECDecoder at h
  split at h
  · cases h
  split at h
  · cases h
  rename_i h0 h1
  obtain ⟨c, hc, rfl⟩ := Option.map_eq_some_iff.mp h
  have hpos : 0 < d ∧ 0 < p := by omega
  refine ⟨⟨⟨hpos.1, hpos.2, rfl, Nat.not_lt.mp h1, rfl, rfl, rfl, hc⟩, fun id x hx => ?_, fun id hid => ?_⟩,
    rfl, rfl, rfl, rfl, rfl, rfl⟩
  · simp at hx
  · simp at hid

end

end FecDecoder
end KcpGo.L2
