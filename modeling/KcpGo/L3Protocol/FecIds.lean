import KcpGo.L2Machine.FecSizes
import KcpGo.L3Protocol.FecLink

/-!
# The sequence ids of an encoder

`encode` and `encodeOOB` are called in any order, with any clock and rto, and
the codec may fail at any call; the caller may change the parity buffers it
was given. A ghost number counts the ids in the order of encoding, made and
skipped ones; `idsOf` is that number for a number of packets. `Aligned` ties it
to the encoder: `next` is the number modulo `paws`, and the place in the group
is `shardCount`.

`fec_ids` is what follows for every packet made, and for a decoder that gets
any of them in any order.
-/
namespace KcpGo.L3.Fec

open KcpGo.L1 KcpGo.L2

structure IdLink where
  enc : FecEncoder
  dec : FecDecoder
  /-- How many packets were encoded. -/
  count : Nat
  /-- The data and parity packets, with their numbers in the order of encoding. -/
  sent : List (Nat × Bytes)
  /-- The out-of-band packets. -/
  oob : List Bytes

inductive IdEv where
  /-- the codec as it answers this call -/
  | encode (codec : Codec) (b : Bytes) (now : Int) (rto : UInt32)
  | encodeOOB (b : Bytes)
  | scribble (ps : List Slice)
  | deliver (u : Nat) (pkt : Bytes)

namespace IdLink

theorem lawful_sent : LawfulBEq (Nat × Bytes) := inferInstance

attribute [local instance] lawful_sent

/-- The number of the next packet. -/
def issued (s : IdLink) : Nat := idsOf s.enc.dataShards s.enc.parityShards s.count

def next (lib : Lib) (off : Nat) (s : IdLink) : IdEv → Option IdLink
  | .encode codec b now rto =>
    match { s.enc with codec := codec }.encode b now rto with
    | .ok (enc, b', ps) =>
      some { s with enc := enc
                    count := s.count + 1
                    sent := s.sent ++ (s.issued, b'.drop off) :: FecLink.numbered off (s.issued + 1) ps }
    | .error _ => none
  | .encodeOOB b =>
    match s.enc.encodeOOB b with
    | .ok b' => some { s with oob := s.oob ++ [b'.drop off] }
    | .error _ => none
  | .scribble ps =>
    if ps.length = s.enc.parityShards ∧ ∀ sl ∈ ps, sl.cap = maxPacketSize ∧ off + 6 ≤ sl.len then
      some { s with enc := { s.enc with shardCache := s.enc.shardCache.take s.enc.dataShards ++ ps } }
    else none
  | .deliver u pkt =>
    if (u, pkt) ∈ s.sent then
      match s.dec.decode lib pkt with
      | .ok (dec, _) => some { s with dec := dec }
      | .error _ => none
    else none

end IdLink

/-- Codecs may fail, but what they return has the sizes of what they got. -/
def IdEv.Allowed (d p : Nat) : IdEv → Prop
  | .encode codec _ _ _ => codec.Sized d p
  | _ => True

def idLink (lib : Lib) (d p off : Nat) : LTS IdLink IdEv :=
  (LTS.ofFn (fun s => newFECEncoder lib.newCodec d p off = some s.enc ∧ newFECDecoder lib d p = some s.dec ∧
    s.count = 0 ∧ s.sent = [] ∧ s.oob = []) (IdLink.next lib off)).restrict fun _ l _ => l.Allowed d p

/-! ## The encoder -/

/-- The encoder has used `n` ids. -/
structure Aligned (d p off n : Nat) (enc : FecEncoder) : Prop where
  data : enc.dataShards = d
  par : enc.parityShards = p
  pos : 0 < d ∧ 0 < p
  le : d + p ≤ 256
  paws : enc.paws = pawsOf (d + p)
  head : enc.headerOffset = off
  payload : enc.payloadOffset = off + 6
  cap : ∀ s ∈ enc.shardCache, s.cap = maxPacketSize
  next : enc.next.toNat = n % (pawsOf (d + p)).toNat
  count : n % (d + p) = enc.shardCount
  few : enc.shardCount < d
  sound : off + 6 ≤ maxPacketSize → ∀ codec : Codec, codec.Sized d p →
    FecEncoder.Sound off (off + 8) maxPacketSize { enc with codec := codec }

section
variable {lib : Lib} {d p off n : Nat} {enc : FecEncoder}

theorem newFECEncoder_aligned (hle : d + p ≤ 256) (h : newFECEncoder lib.newCodec d p off = some enc) :
    Aligned d p off 0 enc := by
  unfold newFECEncoder at h
  split at h
  · cases h
  rename_i h0
  obtain ⟨c, hcodec, rfl⟩ := Option.map_eq_some_iff.mp h
  refine ⟨rfl, rfl, by omega, hle, rfl, rfl, rfl, fun s hs => ?_, (Nat.zero_mod _).symm,
    Nat.zero_mod _, by show 0 < d; omega,
    fun hoff codec hc => ?_⟩
  · rw [List.eq_of_mem_replicate hs, Slice.make_cap]
  · have hnew : newFECEncoder (fun _ _ => some codec) d p off = some _ := if_neg h0
    refine FecEncoder.newFECEncoder_sound (fun c h => ?_) hoff hnew
    cases h
    exact hc

/-- A call returns only for a packet that fits a shard buffer. -/
theorem encode_fits (h : Aligned d p off n enc) {b : Bytes} {now : Int} {rto : UInt32}
    {r : FecEncoder × Bytes × List Bytes}
    {codec : Codec} (hr : { enc with codec := codec }.encode b now rto = .ok r) :
    off + 8 ≤ b.length ∧ b.length ≤ maxPacketSize := by
  obtain ⟨x, hcol, -⟩ := Go.bind_ok hr
  unfold FecEncoder.collect at hcol
  dsimp only at hcol
  rw [h.payload] at hcol
  split at hcol
  · cases hcol
  rename_i hlow
  split at hcol
  · cases hcol
  rename_i sl hsl
  obtain ⟨sl', hre, -⟩ := Go.bind_ok hcol
  have hcap := h.cap sl (List.mem_of_getElem? hsl)
  refine ⟨by omega, ?_⟩
  unfold Slice.reslice at hre
  split at hre
  · rename_i hle
    have hlen : sl.mem.length = maxPacketSize := hcap
    simp only [FecEncoder.sealed, h.head, List.length_append, List.length_take, List.length_drop, fecHeader_length,
      LE.put_length] at hle
    omega
  · cases hre

theorem after_toNat {paws next : UInt32} (hpos : 0 < paws.toNat) (h : next.toNat = n % paws.toNat) (k : Nat) :
    (FecEncoder.after paws k next).toNat = (n + k) % paws.toNat := by
  induction k with
  | zero => exact h
  | succ k ih =>
    rw [FecEncoder.after, Function.iterate_succ_apply']
    exact FecEncoder.next_add (k := 1) ih (Nat.mod_lt _ hpos)

/-- **One `encode`.** The packet has the next id; a full group is followed by
its parity, or by the ids of it. -/
theorem Aligned.encode (h : Aligned d p off n enc) {codec : Codec} (hc : codec.Sized d p) {b b' : Bytes} {now : Int}
    {rto : UInt32} {enc' : FecEncoder} {ps : List Bytes}
    (hr : { enc with codec := codec }.encode b now rto = .ok (enc', b', ps)) :
    (∃ x, b'.drop off = fecHeader enc.next typeData ++ x) ∧
    ((enc.shardCount + 1 < d ∧ ps = [] ∧ Aligned d p off (n + 1) enc') ∨
      (enc.shardCount + 1 = d ∧ Aligned d p off (n + 1 + p) enc' ∧ ps.length ≤ p ∧
        ∀ (k : Nat) (x : Bytes), ps[k]? = some x →
        ∃ code, FecEncoder.IsParity d p off (n + 1 + k) code x)) := by
  obtain ⟨hlow, hup⟩ := encode_fits h hr
  have hsound := h.sound (by omega) codec hc
  obtain ⟨enc₁, ps₁, henc, hsound₁, hsame, hnum⟩ :=
    FecEncoder.encode_sound hsound (Nat.le_refl _) (Nat.le_refl _) hlow hup now rto
  rw [hr] at henc
  obtain ⟨rfl, rfl, rfl⟩ : enc' = enc₁ ∧ b' = _ ∧ ps = ps₁ := by simpa using henc
  have hpos := FecEncoder.paws_pos (show 0 < d + p by have := h.pos; omega) h.le
  have hcodec {codec' : Codec} (hc' : codec'.Sized d p) : codec'.Sized enc'.dataShards enc'.parityShards := by
    rw [hsame.data, hsame.par]
    exact h.data.symm ▸ h.par.symm ▸ hc'
  have hkeep {m : Nat} (hnext : enc'.next.toNat = m % (pawsOf (d + p)).toNat) (hcount : m % (d + p) = enc'.shardCount) :
      Aligned d p off m enc' :=
    { data := hsame.data.trans h.data
      par := hsame.par.trans h.par
      pos := h.pos
      le := h.le
      paws := hsame.paws.trans h.paws
      head := hsound₁.head
      payload := hsound₁.payload
      cap := hsound₁.cap
      next := hnext
      count := hcount
      few := Nat.lt_of_lt_of_eq hsound₁.few (hsame.data.trans h.data)
      sound := fun _ _ hc' => { hsound₁ with codec := hcodec hc' } }
  have hcount := h.count
  have hfew := h.few
  have hone : ((enc.next + 1) % pawsOf (d + p)).toNat = (n + 1) % (pawsOf (d + p)).toNat :=
    FecEncoder.next_add (k := 1) h.next (Nat.mod_lt _ hpos)
  have hsucc : (n + 1) % (d + p) = (enc.shardCount + 1) % (d + p) := by rw [← hcount, Nat.mod_add_mod]
  refine ⟨⟨FecEncoder.shardOf { enc with codec := codec } b, List.drop_left' (List.length_take_of_le (by omega))⟩, ?_⟩
  · cases hnum with
    | joined few count next =>
      refine .inl ⟨h.data ▸ few, rfl, hkeep ?_ ?_⟩
      · rw [next, h.paws]
        exact hone
      · rw [count, hsucc, Nat.mod_eq_of_lt (by have := h.pos; omega)]
    | closed full count lower upper parity =>
      have hfull : enc.shardCount + 1 = d := full.trans h.data
      have hmod : (n + 1) % (d + p) = d := by rw [hsucc, hfull, Nat.mod_eq_of_lt (by have := h.pos; omega)]
      have hzero : (n + 1 + p) % (d + p) = 0 := by rw [← Nat.mod_add_mod, hmod, Nat.mod_self]
      have hpar : FecEncoder.Parity off _ p (pawsOf (d + p)) ((enc.next + 1) % pawsOf (d + p)) enc'.next ps :=
        h.par ▸ h.paws ▸ parity
      cases hpar with
      | skipped hnext =>
        refine .inr ⟨hfull, hkeep ?_ (hzero.trans count.symm), Nat.zero_le _, by simp⟩
        rw [hnext]
        exact FecEncoder.next_add hone (FecEncoder.group_room (by omega) h.le hmod (Nat.le_refl _))
      | made length hnext get =>
        refine .inr ⟨hfull, hkeep ?_ (hzero.trans count.symm), Nat.le_of_eq length, fun k x hx => ?_⟩
        · rw [hnext]
          exact after_toNat hpos hone p
        · obtain ⟨pre, code, hpre, hx', -⟩ := get k x hx
          exact ⟨code, pre, _, hpre, after_toNat hpos hone k, hx'⟩

theorem Aligned.scribble (h : Aligned d p off n enc) {ps : List Slice} (hlen : ps.length = enc.parityShards)
    (hps : ∀ sl ∈ ps, sl.cap = maxPacketSize ∧ off + 6 ≤ sl.len) :
    Aligned d p off n { enc with shardCache := enc.shardCache.take enc.dataShards ++ ps } where
  data := h.data
  par := h.par
  pos := h.pos
  le := h.le
  paws := h.paws
  head := h.head
  payload := h.payload
  cap := by
    intro s hs
    rcases List.mem_append.mp hs with hs | hs
    · exact h.cap s (List.mem_of_mem_take hs)
    · exact (hps s hs).1
  next := h.next
  count := h.count
  few := h.few
  sound hoff _ hc := (h.sound hoff _ hc).scribble hlen hps

/-! ## The packets -/

section
variable {j : Nat}

theorem idsOf_mod (hd : 0 < d) (j : Nat) : idsOf d p j % (d + p) = j % d := by
  have := Nat.mod_lt j hd
  exact block_mod (by omega)

theorem idsOf_joined (h : j % d + 1 < d) : idsOf d p (j + 1) = idsOf d p j + 1 := by
  have hj : j + 1 = j / d * d + (j % d + 1) := by rw [← Nat.add_assoc, Nat.div_add_mod']
  rw [hj, idsOf_add h]
  rfl

theorem idsOf_closed (h : j % d + 1 = d) : idsOf d p (j + 1) = idsOf d p j + 1 + p := by
  have hj : j + 1 = (j / d + 1) * d + 0 := by
    have := Nat.div_add_mod' j d
    rw [Nat.add_mul]
    omega
  rw [hj, idsOf_add (by omega), idsOf, Nat.add_mul]
  omega

end

/-- The packet has the id and the type of its number. -/
structure Placed (d p u : Nat) (pkt : Bytes) : Prop where
  long : fecHeaderSize ≤ pkt.length
  id : (seqid pkt).toNat = u % (pawsOf (d + p)).toNat
  type : flag pkt = if u % (d + p) < d then typeData else typeParity

theorem placed_data {u : Nat} {id : UInt32} {x : Bytes} (hid : id.toNat = u % (pawsOf (d + p)).toNat)
    (hu : u % (d + p) < d) :
    Placed d p u (fecHeader id typeData ++ x) where
  long := by
    rw [List.length_append, fecHeader_length]
    exact Nat.le_add_right _ _
  id := by rw [seqid_sealed, hid]
  type := by rw [flag_sealed, if_pos hu]

theorem placed_parity {u : Nat} {code b : Bytes} (h : FecEncoder.IsParity d p off u code b) (hu : d ≤ u % (d + p)) :
    Placed d p u (b.drop off) := by
  obtain ⟨pre, id, hpre, hid, rfl⟩ := h
  rw [List.append_assoc, List.drop_left' hpre]
  refine ⟨?_, by rw [seqid_sealed, hid], by rw [flag_sealed, if_neg (Nat.not_lt.mpr hu)]⟩
  rw [List.length_append, fecHeader_length]
  exact Nat.le_add_right _ _

/-- Numbers follow the ids within a group. -/
theorem id_in_group (hle : d + p ≤ 256) (u : Nat) :
    u % (pawsOf (d + p)).toNat = u / (d + p) * (d + p) % (pawsOf (d + p)).toNat + u % (d + p) := by
  obtain ⟨q, hq⟩ := FecEncoder.paws_dvd hle
  rw [hq, Nat.mod_mul, Nat.mul_comm (d + p) q, Nat.mul_mod_mul_right, Nat.mul_comm (d + p), Nat.add_comm]

/-! ## The system -/

/-- What holds in every reachable state. -/
structure IdInv (d p off : Nat) (s : IdLink) : Prop where
  aligned : Aligned d p off s.issued s.enc
  old : ∀ u pkt, (u, pkt) ∈ s.sent → u < s.issued
  placed : ∀ u pkt, (u, pkt) ∈ s.sent → Placed d p u pkt
  ordered : (s.sent.map Prod.fst).Pairwise (· < ·)
  calm : s.dec.shouldTune = false
  data : s.dec.dataShards = d
  size : s.dec.shardSize = d + p
  paws : s.dec.paws = pawsOf (d + p)

variable {s s' : IdLink}

theorem IdInv.below (h : IdInv d p off s) {u : Nat} {pkt : Bytes} (hu : (u, pkt) ∈ s.sent) :
    seqid pkt < s.dec.paws := by
  have := h.aligned.pos
  rw [UInt32.lt_iff_toNat_lt, (h.placed u pkt hu).id, h.paws]
  exact Nat.mod_lt _ (FecEncoder.paws_pos (by omega) h.aligned.le)

/-- A packet of the encoder is neither rejected nor a reason to tune. -/
theorem IdInv.decode (h : IdInv d p off s) (lib : Lib) {u : Nat} {pkt : Bytes} (hu : (u, pkt) ∈ s.sent) :
    s.dec.decode lib pkt = (s.dec.sampled pkt).receive pkt := by
  have hle := h.aligned.le
  have hpos := h.aligned.pos
  obtain ⟨hlong, hid, htype⟩ := h.placed u pkt hu
  have hlt : ¬ (s.dec.sampled pkt).paws ≤ seqid pkt := UInt32.not_le.mpr (h.below hu)
  have hz : (UInt32.ofNat (d + p)).toNat = d + p := toNat_ofNat_small hle
  have hmod : (seqid pkt % UInt32.ofNat (d + p)).toNat = u % (d + p) := by
    rw [UInt32.toNat_mod, hz, hid, Nat.mod_mod_of_dvd _ (FecEncoder.paws_dvd hle)]
  have hd : (UInt32.ofNat d).toNat = d := toNat_ofNat_small (by omega)
  have hexp : flag pkt = (s.dec.sampled pkt).expected (seqid pkt) := by
    rw [htype]
    show _ = if seqid pkt % UInt32.ofNat s.dec.shardSize < UInt32.ofNat s.dec.dataShards then typeData else typeParity
    rw [h.size, h.data]
    simp only [UInt32.lt_iff_toNat_lt, hmod, hd]
  have hne : UInt32.ofNat (s.dec.sampled pkt).shardSize ≠ 0 := by
    show UInt32.ofNat s.dec.shardSize ≠ 0
    rw [h.size]
    intro h0
    rw [h0, UInt32.toNat_zero] at hz
    omega
  have hcheck : (s.dec.sampled pkt).checked pkt = s.dec.sampled pkt := if_pos hexp
  unfold FecDecoder.decode
  rw [if_neg (Nat.not_lt.mpr hlong)]
  dsimp only
  rw [if_neg hlt, if_neg hne, hcheck, if_neg (by rw [FecDecoder.sampled, h.calm]; exact Bool.false_ne_true)]

/-- A packet that fits is a duplicate, or its set is put back with it or
emptied, and then old sets go. -/
theorem receive_cases {dec dec' : FecDecoder} {pkt : Bytes} {r : List Bytes} (h : dec.receive pkt = .ok (dec', r)) :
    (((dec.shardSet.lookup (dec.getShardId (seqid pkt))).getD .empty).has (seqid pkt) = true ∧ dec' = dec) ∨
    (((dec.shardSet.lookup (dec.getShardId (seqid pkt))).getD .empty).has (seqid pkt) = false ∧ ∃ x,
      dec' = FecDecoder.discardShards { dec with
        shardSet := dec.shardSet.insert (dec.getShardId (seqid pkt)) x
        newestShardId := (dec.updateNewest (dec.getShardId (seqid pkt))).newestShardId }) := by
  have hnew (set : Table UInt32 ShardHeap) : { dec with shardSet := set }.updateNewest (dec.getShardId (seqid pkt)) =
      { dec with shardSet := set, newestShardId := (dec.updateNewest (dec.getShardId (seqid pkt))).newestShardId } := by
    unfold FecDecoder.updateNewest
    by_cases hlt : 0 < itimediff (dec.start (dec.getShardId (seqid pkt))) (dec.start dec.newestShardId)
    · rw [if_pos hlt]
      exact if_pos hlt
    · rw [if_neg hlt]
      exact if_neg hlt
  unfold FecDecoder.receive at h
  dsimp only at h
  rw [hnew] at h
  split at h
  · rename_i hdup
    cases h
    exact .inl ⟨hdup, rfl⟩
  rename_i hdup
  rw [Bool.not_eq_true] at hdup
  split at h
  · cases h
  split at h
  · cases h
    exact .inr ⟨hdup, _, rfl⟩
  · obtain ⟨rs, -, h⟩ := Go.bind_ok h
    rw [AList.insert_insert] at h
    cases h
    exact .inr ⟨hdup, _, rfl⟩

/-- The numbers of the packets of one call follow each other. -/
theorem ordered_append {sent : List (Nat × Bytes)} (h : (sent.map Prod.fst).Pairwise (· < ·)) {m : Nat}
    (hold : ∀ u pkt, (u, pkt) ∈ sent → u < m) (b : Bytes) (ps : List Bytes) :
    ((sent ++ (m, b) :: FecLink.numbered off (m + 1) ps).map Prod.fst).Pairwise (· < ·) := by
  have hnew : ((m, b) :: FecLink.numbered off (m + 1) ps).map Prod.fst = List.range' m (ps.length + 1) := by
    rw [List.map_cons, FecLink.numbered, List.map_map, List.range'_succ]
    exact congrArg (m :: ·) (List.zipIdx_map_snd (m + 1) ps)
  rw [List.map_append, hnew, List.pairwise_append]
  refine ⟨h, List.pairwise_lt_range', fun u hu v hv => ?_⟩
  obtain ⟨⟨u, pkt⟩, hmem, rfl⟩ := List.mem_map.mp hu
  exact Nat.lt_of_lt_of_le (hold u pkt hmem) (List.left_le_of_mem_range' hv)

theorem IdInv.encode (h : IdInv d p off s) {codec : Codec} (hc : codec.Sized d p) {b b' : Bytes}
    {now : Int} {rto : UInt32}
    {ps : List Bytes} (hr : { s.enc with codec := codec }.encode b now rto = .ok (enc, b', ps)) :
    IdInv d p off { s with enc := enc
                           count := s.count + 1
                           sent := s.sent ++ (s.issued, b'.drop off) :: FecLink.numbered off (s.issued + 1) ps } := by
  obtain ⟨⟨x, hb'⟩, hcases⟩ := h.aligned.encode hc hr
  have hfew := h.aligned.few
  have hcount := h.aligned.count
  have hiss : s.issued = idsOf d p s.count := by rw [IdLink.issued, h.aligned.data, h.aligned.par]
  have hj : s.count % d = s.enc.shardCount := by rw [← hcount, hiss, idsOf_mod h.aligned.pos.1]
  have hplaced : ∀ u pkt, (u, pkt) ∈ s.sent ++ (s.issued, b'.drop off) :: FecLink.numbered off (s.issued + 1) ps →
      Placed d p u pkt := by
    intro u pkt hu
    rcases List.mem_append.mp hu with hu | hu
    · exact h.placed u pkt hu
    rcases List.mem_cons.mp hu with hu | hu
    · cases hu
      rw [hb']
      exact placed_data h.aligned.next (by rw [hcount]; exact hfew)
    · obtain ⟨k, y, rfl, hk, rfl⟩ := mem_numbered hu
      rcases hcases with ⟨-, rfl, -⟩ | ⟨hfull, -, hlen, hps⟩
      · cases hk
      · obtain ⟨code, hpar⟩ := hps k y hk
        have hkp := (List.getElem?_eq_some_iff.mp hk).1
        refine placed_parity hpar ?_
        rw [Nat.add_assoc, ← Nat.mod_add_mod, hcount, Nat.mod_eq_of_lt (by omega)]
        omega
  obtain ⟨halign, hlen⟩ : Aligned d p off (idsOf d p (s.count + 1)) enc ∧
    s.issued + 1 + ps.length ≤ idsOf d p (s.count + 1) := by
    rcases hcases with ⟨hless, rfl, halign⟩ | ⟨hfull, halign, hlen, -⟩
    · rw [idsOf_joined (by omega), ← hiss]
      exact ⟨halign, Nat.le_refl _⟩
    · rw [idsOf_closed (by omega), ← hiss]
      exact ⟨halign, Nat.add_le_add_left hlen _⟩
  have hiss' : idsOf enc.dataShards enc.parityShards (s.count + 1) = idsOf d p (s.count + 1) := by
    rw [halign.data, halign.par]
  refine { h with aligned := ?_, old := fun u pkt hu => ?_, placed := hplaced, ordered := ?_ }
  · show Aligned d p off (idsOf enc.dataShards enc.parityShards (s.count + 1)) enc
    rw [hiss']
    exact halign
  · show u < idsOf enc.dataShards enc.parityShards (s.count + 1)
    rw [hiss']
    rcases List.mem_append.mp hu with hu | hu
    · have := h.old u pkt hu
      omega
    rcases List.mem_cons.mp hu with hu | hu
    · cases hu
      omega
    · obtain ⟨k, y, rfl, hk, -⟩ := mem_numbered hu
      have := (List.getElem?_eq_some_iff.mp hk).1
      omega
  · exact ordered_append h.ordered h.old _ _

theorem IdInv.step (h : IdInv d p off s) {l : IdEv} (hs : (idLink lib d p off).step s l s') : IdInv d p off s' := by
  obtain ⟨hs, hall⟩ := hs
  change s.next lib off l = some s' at hs
  cases l with
  | encode codec b now rto =>
    rw [IdLink.next] at hs
    split at hs
    · rename_i enc b' ps hr
      cases hs
      exact h.encode hall hr
    · cases hs
  | encodeOOB b =>
    rw [IdLink.next] at hs
    split at hs
    · cases hs
      exact { h with }
    · cases hs
  | scribble ps =>
    rw [IdLink.next] at hs
    split at hs
    · rename_i hps
      cases hs
      exact { h with aligned := h.aligned.scribble hps.1 hps.2 }
    · cases hs
  | deliver u pkt =>
    rw [IdLink.next] at hs
    split at hs
    · rename_i hu
      rw [h.decode lib hu] at hs
      split at hs
      · rename_i dec r hr
        cases hs
        rcases receive_cases hr with ⟨-, rfl⟩ | ⟨-, x, rfl⟩
        · exact { h with }
        · exact { h with }
      · cases hs
    · cases hs

theorem IdInv.init (hs : (idLink lib d p off).init s) : IdInv d p off s := by
  obtain ⟨henc, hdec, hcount, hsent, -⟩ := hs
  obtain ⟨hinv, hd, hp, -, -, -, hcalm⟩ := FecDecoder.newFECDecoder_inv hdec
  have hsize : s.dec.shardSize = d + p := by rw [hinv.size, hd, hp]
  have halign := newFECEncoder_aligned (hsize ▸ hinv.le) henc
  have hiss : s.issued = 0 := by rw [IdLink.issued, hcount, idsOf, Nat.zero_div, Nat.zero_mod, Nat.zero_mul]
  exact
    { aligned := hiss.symm ▸ halign
      old := by simp [hsent]
      placed := by simp [hsent]
      ordered := by simp [hsent]
      calm := hcalm
      data := hd
      size := hsize
      paws := by rw [hinv.paws, hsize] }

theorem idInv_inductive : (idLink lib d p off).Inductive (IdInv d p off) where
  init _ := IdInv.init
  step _ _ _ h := h.step

/-- **The ids of a stream.** In every reachable state: `next` is at the place
of `shardCount` in its group, below `paws`; the additions of `sealData`, of
`skipParity` and of the packets sealed stay below 2^32; the id of a packet is
the start of its group modulo `paws` plus its place, a data place exactly for
data; ids that repeat are `paws` numbers apart or more; and the decoder,
whatever it got of these packets, takes each of them as a packet of its
parameters. -/
theorem fec_ids (hs : (idLink lib d p off).Reachable s) :
    (s.enc.next.toNat % (d + p) = s.enc.shardCount ∧ s.enc.next < s.enc.paws) ∧
    (s.enc.next.toNat + 1 < 2 ^ 32 ∧
      (s.enc.shardCount + 1 = d → ((s.enc.next + 1) % s.enc.paws).toNat + p < 2 ^ 32) ∧
      ∀ u pkt, (u, pkt) ∈ s.sent → (seqid pkt).toNat + 1 < 2 ^ 32) ∧
    (∀ u pkt, (u, pkt) ∈ s.sent →
      (seqid pkt).toNat = u / (d + p) * (d + p) % s.enc.paws.toNat + u % (d + p) ∧
      (flag pkt = typeData ∧ (seqid pkt).toNat % (d + p) < d ∨ flag pkt = typeParity ∧
        d ≤ (seqid pkt).toNat % (d + p))) ∧
    (s.sent.map Prod.fst).Pairwise (· < ·) ∧
    (∀ u v a b, (u, a) ∈ s.sent → (v, b) ∈ s.sent → u < v → seqid a = seqid b → u + s.enc.paws.toNat ≤ v) ∧
    s.dec.shouldTune = false ∧
    (∀ u pkt, (u, pkt) ∈ s.sent → seqid pkt < s.dec.paws ∧ s.dec.decode lib pkt = (s.dec.sampled pkt).receive pkt) := by
  have h := idInv_inductive.reachable s hs
  obtain ⟨-, hp⟩ := h.aligned.pos
  have hle := h.aligned.le
  have hpos := FecEncoder.paws_pos (show 0 < d + p by omega) hle
  have hdvd := FecEncoder.paws_dvd hle
  have htop := (pawsOf (d + p)).toNat_lt
  have hbelow (u : Nat) : u % (pawsOf (d + p)).toNat < (pawsOf (d + p)).toNat := Nat.mod_lt u hpos
  have hplace (u : Nat) : u % (pawsOf (d + p)).toNat % (d + p) = u % (d + p) := Nat.mod_mod_of_dvd u hdvd
  have hnext := h.aligned.next
  have hcount := h.aligned.count
  rw [h.aligned.paws]
  refine ⟨⟨?_, ?_⟩, ⟨?_, ?_, ?_⟩, fun u pkt hu => ?_, h.ordered, ?_, h.calm, fun u pkt hu => ⟨?_, h.decode lib hu⟩⟩
  · rw [hnext, hplace, hcount]
  · rw [UInt32.lt_iff_toNat_lt, hnext]
    exact hbelow _
  · have := hbelow s.issued
    omega
  · intro hfull
    have hone : ((s.enc.next + 1) % pawsOf (d + p)).toNat = (s.issued + 1) % (pawsOf (d + p)).toNat :=
      FecEncoder.next_add (k := 1) hnext (hbelow _)
    have hmod : (s.issued + 1) % (d + p) = d := by rw [← Nat.mod_add_mod, hcount, hfull, Nat.mod_eq_of_lt (by omega)]
    have hroom := FecEncoder.group_room (show 0 < d + p by omega) hle hmod (Nat.le_refl _)
    rw [hone]
    omega
  · intro u pkt hu
    have := hbelow u
    rw [(h.placed u pkt hu).id]
    omega
  · obtain ⟨-, hid, htype⟩ := h.placed u pkt hu
    rw [hid, ← id_in_group hle, hplace]
    refine ⟨rfl, ?_⟩
    by_cases hdata : u % (d + p) < d
    · exact .inl ⟨by rw [htype, if_pos hdata], hdata⟩
    · exact .inr ⟨by rw [htype, if_neg hdata], Nat.not_lt.mp hdata⟩
  · intro u v a b hu hv hlt hsame
    have hmod : u % (pawsOf (d + p)).toNat = v % (pawsOf (d + p)).toNat := by
      rw [← (h.placed u a hu).id, ← (h.placed v b hv).id, hsame]
    have := Nat.le_of_dvd (by omega) ((Nat.modEq_iff_dvd' (Nat.le_of_lt hlt)).mp hmod)
    omega
  · exact h.below hu

/-- A codec that fails. -/
def failing : Codec := ⟨fun _ => .ok none, fun _ => .ok none⟩

theorem failing_sized (d p : Nat) : failing.Sized d p :=
  ⟨fun _ _ _ _ _ => ⟨none, rfl, by simp⟩, by rintro _ _ _ _ _ _ ⟨⟩⟩

/-- Two groups of two packets: the codec fails for the first. An out-of-band
packet is made in between, and the parity of the second group is delivered. -/
def idRun : List IdEv :=
  [.encode .xorPair [0, 0, 0, 0, 0, 0, 0, 0, 5] 0 1, .encodeOOB [0, 0, 0, 0, 0, 0, 0, 0],
    .encode failing [0, 0, 0, 0, 0, 0, 0, 0, 6] 0 1,
    .encode .xorPair [0, 0, 0, 0, 0, 0, 0, 0, 7] 0 1, .encode .xorPair [0, 0, 0, 0, 0, 0, 0, 0, 8, 9] 0 1,
    .deliver 5 [5, 0, 0, 0, 242, 0, 7, 0, 15, 9]]

end

def idStart : Option IdLink := do
  let enc ← newFECEncoder xors.newCodec 2 1 0
  let dec ← newFECDecoder xors 2 1
  LTS.play (IdLink.next xors 0) (fun _ _ => true) ⟨enc, dec, 0, [], []⟩ idRun

theorem idRun_allowed : ∀ l ∈ idRun, l.Allowed 2 1 := by
  simp [idRun, IdEv.Allowed, Codec.xorPair_sized, failing_sized]

theorem fec_ids_failed : ∃ s, (idLink xors 2 1 0).Reachable s ∧ (5, [5, 0, 0, 0, 242, 0, 7, 0, 15, 9]) ∈ s.sent ∧
    s.dec.decode xors [5, 0, 0, 0, 242, 0, 7, 0, 15, 9] = (s.dec.sampled [5, 0, 0, 0, 242, 0, 7, 0, 15, 9]).receive
      [5, 0, 0, 0, 242, 0, 7, 0, 15, 9] := by
  have hrun : idStart.any (fun s => decide ((5, [5, 0, 0, 0, 242, 0, 7, 0, 15, 9]) ∈ s.sent)) = true := by
    decide +kernel
  obtain ⟨s, hs, hsent⟩ := (Option.any_eq_true _ _).mp hrun
  have hsent := of_decide_eq_true hsent
  simp only [idStart, Option.bind_eq_bind, Option.bind_eq_some_iff] at hs
  obtain ⟨enc, henc, dec, hdec, hplay⟩ := hs
  have hr : (idLink xors 2 1 0).Reachable s :=
    ⟨_, idRun, ⟨henc, hdec, rfl, rfl, rfl⟩, (LTS.play_run (fun _ _ _ _ h => h) hplay).restrict idRun_allowed⟩
  obtain ⟨-, -, -, -, -, -, hdecode⟩ := fec_ids hr
  exact ⟨s, hr, hsent, (hdecode 5 _ hsent).2⟩

end KcpGo.L3.Fec
