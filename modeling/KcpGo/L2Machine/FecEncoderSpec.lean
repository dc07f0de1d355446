import KcpGo.L2Machine.FecEncoder

/-!
# What one `encode` does

`Collects` relates an encoder to the count of sequence ids it has used and
the size-prefixed payloads of the group it collects. The slices of the cache
may hold anything behind those, and the parity slices anything at all, so
the callers may do with them what they like.

* `encode_spec`: the packet gets the next id and its payload joins the group;
  the last one of a group is followed by the parity of the code word of the
  group, filled up with zeros, or by as many skipped ids.
-/
namespace KcpGo.L2

open KcpGo.L1 KcpGo.Serial

/-- A shard filled up with zeros to `n` bytes. -/
def pad (n : Nat) (s : Bytes) : Bytes := s ++ List.replicate (n - s.length) 0

theorem pad_length {n : Nat} {s : Bytes} (h : s.length ≤ n) : (pad n s).length = n := by
  simp only [pad, List.length_append, List.length_replicate]
  omega

theorem uniform_pad {n : Nat} {l : List Bytes} (h : ∀ s ∈ l, s.length ≤ n) : Codec.Uniform n (l.map (pad n)) := by
  intro s hs
  obtain ⟨x, hx, rfl⟩ := List.mem_map.mp hs
  exact pad_length (h x hx)

/-- The length of the longest shard. -/
def longest (l : List Bytes) : Nat := l.foldr (fun s m => max s.length m) 0

theorem le_longest {l : List Bytes} {s : Bytes} (h : s ∈ l) : s.length ≤ longest l := by
  induction l with
  | nil => cases h
  | cons x l ih =>
    rcases List.mem_cons.mp h with rfl | h
    · exact Nat.le_max_left _ _
    · exact Nat.le_trans (ih h) (Nat.le_max_right _ _)

theorem longest_append (l : List Bytes) (s : Bytes) : longest (l ++ [s]) = max (longest l) s.length := by
  induction l with
  | nil => exact Nat.max_comm _ _
  | cons x l ih =>
    show max x.length (longest (l ++ [s])) = max (max x.length (longest l)) s.length
    rw [ih, Nat.max_assoc]

namespace FecEncoder

/-- The size-prefixed payload of a packet.
mirrors src/fec.go:417 -/
def shardOf (enc : FecEncoder) (b : Bytes) : Bytes :=
  LE.put 2 (UInt16.ofNat (b.length - enc.payloadOffset)).toNat ++ b.drop (enc.payloadOffset + 2)

/-- The counts, the offsets and the codec. -/
structure Shape (enc : FecEncoder) (d p off : Nat) (parity : List Bytes → List Bytes) : Prop where
  data : enc.dataShards = d
  par : enc.parityShards = p
  size : enc.shardSize = d + p
  pos : 0 < d
  le : d + p ≤ 256
  paws : enc.paws = pawsOf (d + p)
  head : enc.headerOffset = off
  payload : enc.payloadOffset = off + 6
  cache : enc.shardCache.length = d + p
  cap : ∀ s ∈ enc.shardCache, s.cap = maxPacketSize
  long : off + 6 ≤ maxPacketSize → ∀ s ∈ enc.shardCache.drop d, off + 6 ≤ s.len
  codec : enc.codec.MDS d p parity

/-- The encoder has used `n` ids and collected the shards `grp` of a group. -/
structure Collects (enc : FecEncoder) (d p off : Nat) (parity : List Bytes → List Bytes) (n : Nat) (grp : List Bytes) :
    Prop extends Shape enc d p off parity where
  next : enc.next.toNat = n % (pawsOf (d + p)).toNat
  count : enc.shardCount = grp.length
  few : grp.length < d
  aligned : n % (d + p) = grp.length
  room : enc.maxSize ≤ maxPacketSize
  top : enc.maxSize = if grp = [] then 0 else off + 6 + longest grp
  shards : ∀ (i : Nat) (s : Bytes), grp[i]? = some s → ∃ sl : Slice, enc.shardCache[i]? = some sl ∧
    sl.bytes.drop (off + 6) = s ∧
    off + 6 + s.length = sl.len ∧ sl.len ≤ enc.maxSize

section
variable {enc : FecEncoder} {d p off n : Nat} {parity : List Bytes → List Bytes} {grp : List Bytes}

theorem sealed_eq (hpl : enc.payloadOffset = enc.headerOffset + 6) (id : UInt32) (ty : UInt16) (b : Bytes) :
    enc.sealed id ty b = b.take enc.headerOffset ++ fecHeader id ty ++ enc.shardOf b := by
  rw [sealed, shardOf, hpl, List.append_assoc]

theorem shardOf_length {b : Bytes} (hb : enc.payloadOffset + 2 ≤ b.length) :
    (enc.shardOf b).length = b.length - enc.payloadOffset := by
  simp only [shardOf, List.length_append, LE.put_length, List.length_drop]
  omega

theorem shardOf_sized {b : Bytes} (hb : enc.payloadOffset + 2 ≤ b.length) (hb' : b.length ≤ maxPacketSize) :
    Sized (enc.shardOf b) := by
  unfold maxPacketSize at hb'
  refine sized_put ?_ (by omega)
  rw [List.length_drop]
  omega

theorem paws_pos {z : Nat} (hz : 0 < z) (hle : z ≤ 256) : 0 < (pawsOf z).toNat := by
  rw [pawsOf_toNat hle]
  have : 1 ≤ (2 ^ 32 - 1) / z := (Nat.le_div_iff_mul_le hz).mpr (by omega)
  exact Nat.mul_pos this hz

theorem paws_dvd {z : Nat} (hle : z ≤ 256) : z ∣ (pawsOf z).toNat := by
  rw [pawsOf_toNat hle]
  exact Nat.dvd_mul_left _ _

/-- Ids count on modulo `paws` as long as the sum stays within it. -/
theorem next_add {next paws : UInt32} {n k : Nat} (h : next.toNat = n % paws.toNat)
    (hk : n % paws.toNat + k ≤ paws.toNat) :
    ((next + UInt32.ofNat k) % paws).toNat = (n + k) % paws.toNat := by
  have hlt := paws.toNat_lt
  have hsum : (n % paws.toNat + k) % 2 ^ 32 = n % paws.toNat + k := Nat.mod_eq_of_lt (by omega)
  rw [UInt32.toNat_mod, UInt32.toNat_add, UInt32.toNat_ofNat', h, Nat.add_mod_mod, hsum, Nat.mod_add_mod]

/-- From the end of a group's data there is room for its parity below `paws`. -/
theorem group_room {z r k : Nat} (hz : 0 < z) (hle : z ≤ 256) (hr : n % z = r) (hk : r + k ≤ z) :
    n % (pawsOf z).toNat + k ≤ (pawsOf z).toNat := by
  obtain ⟨q, hq⟩ := paws_dvd hle
  have hpos := paws_pos hz hle
  have hlt := Nat.mod_lt n hpos
  have hmod : n % (pawsOf z).toNat % z = r := by
    rw [Nat.mod_mod_of_dvd _ (paws_dvd hle), hr]
  generalize n % (pawsOf z).toNat = m at hlt hmod ⊢
  have hdm := Nat.div_add_mod m z
  rw [hmod] at hdm
  rw [hq] at hlt ⊢
  have hdiv : m / z < q := Nat.div_lt_of_lt_mul hlt
  have : z * (m / z) + z ≤ z * q := by
    rw [← Nat.mul_succ]
    exact Nat.mul_le_mul_left _ hdiv
  omega

theorem newFECEncoder_collects {newCodec : Nat → Nat → Option Codec} (h : newFECEncoder newCodec d p off = some enc)
    (hle : d + p ≤ 256) (hc : ∀ c, newCodec d p = some c → c.MDS d p parity) : Collects enc d p off parity 0 [] := by
  unfold newFECEncoder at h
  split at h
  · cases h
  rename_i h0
  obtain ⟨c, hcodec, rfl⟩ := Option.map_eq_some_iff.mp h
  have hslice : ∀ s ∈ List.replicate (d + p) (Slice.make maxPacketSize), s = Slice.make maxPacketSize :=
    fun s hs => List.eq_of_mem_replicate hs
  refine ⟨⟨rfl, rfl, rfl, by omega, hle, rfl, rfl, rfl, List.length_replicate, fun s hs => ?_, fun hoff s hs => ?_,
    hc c hcodec⟩, ?_, rfl, by simp only [List.length_nil]; omega, Nat.zero_mod _, Nat.zero_le _, rfl, by simp⟩
  · rw [hslice s hs, Slice.make_cap]
  · rw [hslice s (List.mem_of_mem_drop hs)]
    exact hoff
  · rw [Nat.zero_mod]
    rfl

/-- The callers may leave anything in the parity slices. -/
theorem Collects.scribble (h : Collects enc d p off parity n grp) {ps : List Slice} (hlen : ps.length = p)
    (hps : ∀ s ∈ ps, s.cap = maxPacketSize ∧ off + 6 ≤ s.len) :
    Collects { enc with shardCache := enc.shardCache.take enc.dataShards ++ ps } d p off parity n grp := by
  have htake : (enc.shardCache.take enc.dataShards).length = d := by
    rw [List.length_take, h.cache, h.data]
    omega
  refine { h with cache := ?_, cap := fun s hs => ?_, long := fun _ s hs => ?_, shards := fun i s hi => ?_ }
  · show (enc.shardCache.take enc.dataShards ++ ps).length = _
    rw [List.length_append, htake, hlen]
  · rcases List.mem_append.mp hs with hs | hs
    · exact h.cap s (List.mem_of_mem_take hs)
    · exact (hps s hs).1
  · rw [List.drop_left' htake] at hs
    exact (hps s hs).2
  · obtain ⟨sl, hsl, hrest⟩ := h.shards i s hi
    have hid : i < d := Nat.lt_trans (List.getElem?_eq_some_iff.mp hi).1 h.few
    refine ⟨sl, ?_, hrest⟩
    show (enc.shardCache.take enc.dataShards ++ ps)[i]? = _
    rw [List.getElem?_append_left (by omega), List.getElem?_take_of_lt (by rw [h.data]; exact hid)]
    exact hsl

/-! ## Collecting -/

/-- The offsets, and slices with room for a packet. -/
structure Layout (off : Nat) (enc : FecEncoder) : Prop where
  head : enc.headerOffset = off
  payload : enc.payloadOffset = off + 6
  cache : enc.shardCache.length = enc.dataShards + enc.parityShards
  cap : ∀ s ∈ enc.shardCache, s.cap = maxPacketSize
  long : ∀ s ∈ enc.shardCache.drop enc.dataShards, off + 6 ≤ s.len

theorem Shape.layout (h : Shape enc d p off parity) (hoff : off + 6 ≤ maxPacketSize) : Layout off enc :=
  ⟨h.head, h.payload, by rw [h.cache, h.data, h.par], h.cap, h.data ▸ h.long hoff⟩

/-- The packet goes into the next slice. -/
theorem collect_eq (h : Layout off enc) (hc : enc.shardCount < enc.shardCache.length) {b : Bytes}
    (hb : off + 8 ≤ b.length) (hb' : b.length ≤ maxPacketSize) (now : Int) : ∃ sl : Slice,
    sl.cap = maxPacketSize ∧ sl.len = b.length ∧ sl.bytes.drop (off + 6) = enc.shardOf b ∧
    off + 6 + (enc.shardOf b).length = b.length ∧
    enc.collect b now = .ok ({ enc.advance with shardCache := enc.shardCache.set enc.shardCount sl
                                                shardCount := enc.shardCount + 1
                                                maxSize := max enc.maxSize b.length
                                                tsLatestPacket := now },
      b.take off ++ fecHeader enc.next typeData ++ enc.shardOf b) := by
  have hpl := h.payload
  have hlen : (enc.shardOf b).length = b.length - (off + 6) := by
    rw [← hpl]
    exact shardOf_length (by omega)
  have hseal : enc.sealed enc.next typeData b = b.take off ++ fecHeader enc.next typeData ++ enc.shardOf b := by
    rw [sealed_eq (by rw [hpl, h.head]), h.head]
  have hblen : (b.take off ++ fecHeader enc.next typeData ++ enc.shardOf b).length = b.length := by
    simp only [List.length_append, fecHeader_length, hlen, List.length_take]
    omega
  have hdrop : (b.take off ++ fecHeader enc.next typeData ++ enc.shardOf b).drop (off + 6) = enc.shardOf b := by
    refine List.drop_left' ?_
    simp only [List.length_append, fecHeader_length, List.length_take]
    omega
  have hget : enc.shardCache[enc.shardCount]? = some enc.shardCache[enc.shardCount] := List.getElem?_eq_getElem hc
  generalize enc.shardCache[enc.shardCount] = sl at hget
  have hcap := h.cap sl (List.mem_of_getElem? hget)
  obtain ⟨s₁, h1, hl1, hc1, -⟩ := sl.reslice_ok (n := b.length) (by omega)
  obtain ⟨s₂, h2, hl2, hc2, hbytes⟩ := @Slice.writeAt_ok s₁ (off + 6) (enc.shardOf b) (by omega)
  refine ⟨s₂, by rw [hc2, hc1, hcap], hl2.trans hl1, hbytes, by omega, ?_⟩
  rw [collect, if_neg (by omega), hget]
  simp only [hseal, hblen, h1, Go.ok_bind, hpl, hdrop, h2]

/-- **The packet joins its group.** -/
theorem collect_spec (h : Collects enc d p off parity n grp) {b : Bytes} (hb : off + 8 ≤ b.length)
    (hb' : b.length ≤ maxPacketSize) (now : Int) : ∃ enc',
    enc.collect b now = .ok (enc', b.take off ++ fecHeader enc.next typeData ++ enc.shardOf b) ∧
    Shape enc' d p off parity ∧ enc'.next.toNat = (n + 1) % (pawsOf (d + p)).toNat ∧
    enc'.shardCount = grp.length + 1 ∧ enc'.maxSize ≤ maxPacketSize ∧
    enc'.maxSize = off + 6 + longest (grp ++ [enc.shardOf b]) ∧
    ∀ (i : Nat) (s : Bytes), (grp ++ [enc.shardOf b])[i]? = some s → ∃ sl : Slice, enc'.shardCache[i]? = some sl ∧
      sl.bytes.drop (off + 6) = s ∧ off + 6 + s.length = sl.len ∧ sl.len ≤ enc'.maxSize := by
  have hz : 0 < d + p := by
    have := h.pos
    omega
  have hidx : enc.shardCount < enc.shardCache.length := by
    rw [h.count, h.cache]
    have := h.few
    omega
  obtain ⟨sl, hcap, hlen, hbytes, hsz, hcol⟩ := collect_eq (h.layout (by omega)) hidx hb hb' now
  refine ⟨_, hcol, ⟨h.data, h.par, h.size, h.pos, h.le, h.paws, h.head, h.payload, ?_, ?_, ?_, h.codec⟩,
    ?_, ?_, ?_, ?_, ?_⟩
  · simpa using h.cache
  · intro s hs
    rcases List.mem_or_eq_of_mem_set hs with hs | rfl
    · exact h.cap s hs
    · exact hcap
  · intro hoff s hs
    rw [List.drop_set_of_lt (by rw [h.count]; exact h.few)] at hs
    exact h.long hoff s hs
  · show ((enc.next + 1) % enc.paws).toNat = _
    rw [h.paws]
    exact next_add (k := 1) h.next (group_room hz h.le h.aligned (by have := h.few; omega))
  · show enc.shardCount + 1 = _
    rw [h.count]
  · show max enc.maxSize b.length ≤ _
    exact Nat.max_le.mpr ⟨h.room, hb'⟩
  · show max enc.maxSize b.length = _
    rw [h.top, longest_append, ← hsz]
    split
    · rename_i hnil
      rw [hnil]
      show max 0 (off + 6 + (enc.shardOf b).length) = off + 6 + max 0 (enc.shardOf b).length
      omega
    · omega
  · intro i s hi
    rcases Nat.lt_or_ge i grp.length with hlt | hge
    · rw [List.getElem?_append_left hlt] at hi
      obtain ⟨x, hx, hx1, hx2, hx3⟩ := h.shards i s hi
      refine ⟨x, ?_, hx1, hx2, Nat.le_trans hx3 (Nat.le_max_left _ _)⟩
      rw [List.getElem?_set_ne (by rw [h.count]; omega)]
      exact hx
    · rw [List.getElem?_append_right hge] at hi
      obtain ⟨hi0, rfl⟩ : i = grp.length ∧ s = enc.shardOf b := by
        have := (List.getElem?_eq_some_iff.mp hi).1
        simp only [List.length_singleton] at this
        have h0 : i - grp.length = 0 := by omega
        rw [h0] at hi
        exact ⟨by omega, by simpa using hi.symm⟩
      refine ⟨sl, ?_, hbytes, by omega, ?_⟩
      · rw [hi0, ← h.count]
        exact List.getElem?_set_self hidx
      · rw [hlen]
        exact Nat.le_max_right _ _

/-! ## Parity -/

/-- A sealed parity slice of `size` bytes. -/
structure SealedSlice (off size : Nat) (id : UInt32) (code : Bytes) (s : Slice) : Prop where
  cap : s.cap = maxPacketSize
  len : s.len = size
  bytes : ∃ pre : Bytes, pre.length = off ∧ s.bytes = pre ++ fecHeader id typeParity ++ code

/-- The ids of the parity packets count on from `next`. -/
theorem sealAll_ok {size : Nat} (hsize : size ≤ maxPacketSize) :
    ∀ {ps : List Slice} {codes : List Bytes} {enc : FecEncoder},
    enc.headerOffset = off → enc.payloadOffset = off + 6 → ps.length = codes.length →
    (∀ s ∈ ps, s.cap = maxPacketSize ∧ off + 6 ≤ s.len) → (∀ c ∈ codes, off + 6 + c.length = size) →
    ∃ ps', sealAll size enc ps codes = .ok (advance^[codes.length] enc, ps') ∧ ps'.length = codes.length ∧
      ∀ (k : Nat) (code : Bytes), codes[k]? = some code →
        ∃ s : Slice, ps'[k]? = some s ∧ SealedSlice off size (advance^[k] enc).next code s := by
  intro ps
  induction ps with
  | nil =>
    intro codes enc _ _ hl _ _
    obtain rfl : codes = [] := List.eq_nil_of_length_eq_zero hl.symm
    exact ⟨[], rfl, rfl, by simp⟩
  | cons s ps ih =>
    intro codes enc ho hp hl hs hc
    obtain _ | ⟨c, codes⟩ := codes
    · cases hl
    obtain ⟨hcap, hlong⟩ := hs s List.mem_cons_self
    have hclen := hc c List.mem_cons_self
    obtain ⟨s₁, s₂, s₃, pre, h1, h2, h3, hlen, hcap₃, hpre, hbytes⟩ := @Slice.fill_write_ok s off size
      (fecHeader enc.next typeParity) c (by rw [fecHeader_length]; exact hlong)
      (by rw [fecHeader_length]; exact hclen) (by rw [hcap]; exact hsize)
    rw [fecHeader_length] at h1
    have hone : enc.sealParity size s c = .ok s₃ := by
      simp only [sealParity, ho, hp, h1, h2, h3, Go.ok_bind]
    obtain ⟨ps', hall, hlen', hget⟩ := @ih codes enc.advance ho hp (Nat.succ.inj hl)
      (fun x hx => hs x (List.mem_cons_of_mem _ hx)) fun x hx => hc x (List.mem_cons_of_mem _ hx)
    refine ⟨s₃ :: ps', ?_, congrArg Nat.succ hlen', ?_⟩
    · rw [sealAll, hone, Go.ok_bind, hall]
      rfl
    · intro k code hk
      cases k with
      | zero =>
        obtain rfl : c = code := by simpa using hk
        exact ⟨s₃, rfl, hcap₃.trans hcap, hlen, pre, hpre, hbytes⟩
      | succ k =>
        obtain ⟨x, hx, hx'⟩ := hget k code (by simpa using hk)
        exact ⟨x, by simpa using hx, hx'⟩

/-- The shards handed to the codec: the data with zeros behind, the parity
slices as they are. -/
def codeWord (off size : Nat) (enc : FecEncoder) : List Bytes :=
  (enc.shardCache.take enc.dataShards).map (fun s => pad (size - (off + 6)) (s.bytes.drop (off + 6))) ++
    (enc.shardCache.drop enc.dataShards).map fun s => (s.mem.take size).drop (off + 6)

/-- What follows the call of the codec; `data` are the cleared data slices. -/
def afterCodec (size : Nat) (enc : FecEncoder) (data : List Slice) : Option (List Bytes) → Go (FecEncoder × List Bytes)
  | none => .ok (skipParity { enc with shardCache := data ++ enc.shardCache.drop enc.dataShards }, [])
  | some out => do
    let (enc', ps) ← sealAll size { enc with shardCache := data ++ enc.shardCache.drop enc.dataShards }
      (enc.shardCache.drop enc.dataShards) (out.drop enc.dataShards)
    .ok ({ enc' with shardCache := data ++ ps }, ps.map Slice.bytes)

/-- **The parity of a group is one call of the codec.** -/
theorem makeParity_eq {size : Nat} (h : Layout off enc) (hlo : off + 6 ≤ size) (hsize : size ≤ maxPacketSize)
    (hd : ∀ s ∈ enc.shardCache.take enc.dataShards, off + 6 ≤ s.len ∧ s.len ≤ size) : ∃ data : List Slice,
    data.length = enc.dataShards ∧ (∀ s ∈ data, s.cap = maxPacketSize) ∧
    enc.makeParity size = enc.codec.encode (codeWord off size enc) >>= afterCodec size enc data := by
  have hlen : (enc.shardCache.take enc.dataShards).length = enc.dataShards := by
    rw [List.length_take, h.cache]
    omega
  obtain ⟨data, hdata, hrel⟩ := Go.mapM_forall₂ (f := fun s => s.clearTail size)
    (Q := fun a b => a = b ∧ off + 6 ≤ b.len ∧ b.len ≤ size ∧ b.cap = maxPacketSize)
    (R := fun sl s => sl.cap = maxPacketSize ∧
      sl.range (off + 6) size = .ok (pad (size - (off + 6)) (s.bytes.drop (off + 6))))
    (l := enc.shardCache.take enc.dataShards) (m := enc.shardCache.take enc.dataShards)
    (List.forall₂_same.mpr fun s hs => ⟨rfl, (hd s hs).1, (hd s hs).2, h.cap s (List.mem_of_mem_take hs)⟩) (by
      rintro sl s ⟨rfl, hlo', hhi, hcap⟩
      obtain ⟨sl', hc, -, hcap', hr⟩ := sl.clearTail_ok hhi (by omega)
      refine ⟨sl', hc, hcap'.trans hcap, ?_⟩
      have hrep : size - (off + 6) - (sl.len - (off + 6)) = size - sl.len := by omega
      rw [hr _ hlo', pad, List.length_drop, Slice.bytes_length, hrep])
  obtain ⟨words, hwords, hwrel⟩ := Go.mapM_forall₂ (f := fun s => s.range (off + 6) size)
    (R := fun b s => b = pad (size - (off + 6)) (s.bytes.drop (off + 6))) hrel fun sl s hs => ⟨_, hs.2, rfl⟩
  obtain rfl : words = (enc.shardCache.take enc.dataShards).map fun s => pad (size - (off + 6))
    (s.bytes.drop (off + 6)) := by
    have := List.forall₂_map_right_iff.mpr hwrel
    rwa [List.forall₂_eq_eq_eq] at this
  have hdlen : data.length = enc.dataShards := by rw [hrel.length_eq, hlen]
  have hold : (enc.shardCache.drop enc.dataShards).mapM (fun s => s.range (off + 6) size) =
      .ok ((enc.shardCache.drop enc.dataShards).map fun s => (s.mem.take size).drop (off + 6)) :=
    Go.mapM_ok fun s hs => if_pos ⟨by omega, by rw [h.cap s (List.mem_of_mem_drop hs)]; exact hsize⟩
  have hmap : (data ++ enc.shardCache.drop enc.dataShards).mapM (fun s => s.range enc.payloadOffset size) =
      .ok (codeWord off size enc) := by
    rw [h.payload, List.mapM_append, hwords, hold]
    rfl
  refine ⟨data, hdlen, ((List.forall₂_and_left _ _).mp hrel).1, ?_⟩
  rw [makeParity, hdata, Go.ok_bind]
  dsimp only
  rw [hmap, Go.ok_bind]
  refine congrArg (_ >>= ·) (funext fun r => ?_)
  cases r with
  | none => rfl
  | some out =>
    dsimp only
    rw [List.drop_left' hdlen]
    rfl

/-- A parity packet: anything in front, the id `n` and the code's bytes. -/
def IsParity (d p off n : Nat) (code b : Bytes) : Prop :=
  ∃ (pre : Bytes) (id : UInt32), pre.length = off ∧ id.toNat = n % (pawsOf (d + p)).toNat ∧
    b = pre ++ fecHeader id typeParity ++ code

/-- Ids count on modulo `paws`. -/
theorem advance_iterate (hpa : enc.paws = pawsOf (d + p)) (hpos : 0 < (pawsOf (d + p)).toNat)
    (hn : enc.next.toNat = n % (pawsOf (d + p)).toNat) : ∀ k : Nat, ∃ next',
    advance^[k] enc = { enc with next := next' } ∧ next'.toNat = (n + k) % (pawsOf (d + p)).toNat
  | 0 => ⟨enc.next, rfl, hn⟩
  | k + 1 => by
    obtain ⟨next', he, hnext⟩ := advance_iterate hpa hpos hn k
    refine ⟨(next' + 1) % enc.paws, ?_, ?_⟩
    · rw [Function.iterate_succ_apply', he]
      rfl
    · rw [hpa]
      exact next_add (k := 1) hnext (Nat.mod_lt _ hpos)

/-- A slice of the cache that holds a data shard. -/
def HoldsShard (off size : Nat) (sl : Slice) (s : Bytes) : Prop :=
  sl.cap = maxPacketSize ∧ sl.bytes.drop (off + 6) = s ∧ off + 6 + s.length = sl.len ∧ sl.len ≤ size

/-- **The parity of the padded group follows it.** -/
theorem makeParity_spec {size : Nat} (h : Shape enc d p off parity) (hn : enc.next.toNat = n % (pawsOf (d + p)).toNat)
    (hfull : List.Forall₂ (HoldsShard off size) (enc.shardCache.take d) grp) (hlen : grp.length = d)
    (hne : ∀ s ∈ grp, 0 < s.length) (hsize : size ≤ maxPacketSize) : ∃ enc' ps,
    enc.makeParity size = .ok (enc', ps) ∧ Shape enc' d p off parity ∧
    enc'.next.toNat = (n + p) % (pawsOf (d + p)).toNat ∧ enc'.shardCount = enc.shardCount ∧ enc'.maxSize = enc.maxSize ∧
    ps.length = p ∧ ∀ (k : Nat) (code : Bytes), (parity (grp.map (pad (size - (off + 6)))))[k]? = some code →
      ∃ b, ps[k]? = some b ∧ IsParity d p off (n + k) code b := by
  obtain rfl := h.data
  obtain rfl := h.par
  have hpos := h.pos
  have hslice : ∀ s ∈ enc.shardCache.take enc.dataShards, off + 6 ≤ s.len ∧ s.len ≤ size :=
    ((List.forall₂_and_left _ _).mp (hfull.imp fun sl s hs => ⟨⟨by have := hs.2.2.1; omega, hs.2.2.2⟩, hs⟩)).1
  have hmem : ∀ s ∈ grp, off + 6 + s.length ≤ size := by
    intro s hs
    obtain ⟨i, hi⟩ := List.mem_iff_getElem.mp hs
    obtain ⟨hi, rfl⟩ := hi
    obtain ⟨-, -, h1, h2⟩ := hfull.get (hfull.length_eq ▸ hi) hi
    simp only [List.get_eq_getElem] at h1 h2
    omega
  have hm : 0 < size - (off + 6) := by
    obtain ⟨s, hs⟩ := List.exists_mem_of_length_pos (l := grp) (by omega)
    have := hmem s hs
    have := hne s hs
    omega
  obtain ⟨data, hdlen, hdcap, heq⟩ := makeParity_eq (h.layout (by omega)) (by omega) hsize hslice
  -- the code word of the group, and its parity
  have hword : (enc.shardCache.take enc.dataShards).map (fun s => pad (size - (off + 6)) (s.bytes.drop (off + 6))) =
      grp.map (pad (size - (off + 6))) := by
    rw [← List.forall₂_eq_eq_eq, List.forall₂_map_left_iff, List.forall₂_map_right_iff]
    exact hfull.imp fun sl s hs => by rw [hs.2.1]
  generalize hmd : size - (off + 6) = m at hm hword
  have hpad : ∀ s ∈ grp, s.length ≤ m := by
    intro s hs
    have := hmem s hs
    omega
  have hcaps : ∀ s ∈ enc.shardCache.drop enc.dataShards, s.cap = maxPacketSize :=
    fun s hs => h.cap s (List.mem_of_mem_drop hs)
  have huni : Codec.Uniform m ((enc.shardCache.drop enc.dataShards).map fun s => (s.mem.take size).drop (off + 6)) := by
    intro w hw
    obtain ⟨s, hs, rfl⟩ := List.mem_map.mp hw
    have : s.mem.length = maxPacketSize := hcaps s hs
    rw [List.length_drop, List.length_take_of_le (by omega), hmd]
  have hplen : (enc.shardCache.drop enc.dataShards).length = enc.parityShards := by
    rw [List.length_drop, h.cache]
    omega
  have hgrp : (grp.map (pad m)).length = enc.dataShards := by rw [List.length_map, hlen]
  have hcodes := h.codec.uniform m (grp.map (pad m)) hgrp (uniform_pad hpad)
  have henc := h.codec.encode m (grp.map (pad m)) _ hm hgrp (by rw [List.length_map, hplen]) (uniform_pad hpad) huni
  have hclen := h.codec.length _ hgrp
  obtain ⟨ps, hall, hpsl, hget⟩ := @sealAll_ok off _ hsize (enc.shardCache.drop enc.dataShards)
    (parity (grp.map (pad m))) { enc with shardCache := data ++ enc.shardCache.drop enc.dataShards }
    h.head h.payload (by rw [hplen, hclen]) (fun s hs => ⟨hcaps s hs, h.long (by omega) s hs⟩)
    fun c hc => by rw [hcodes c hc]; omega
  have hids : ∀ k, ∃ next', advance^[k] { enc with shardCache := data ++ enc.shardCache.drop enc.dataShards } =
      { enc with shardCache := data ++ enc.shardCache.drop enc.dataShards, next := next' } ∧
      next'.toNat = (n + k) % (pawsOf (enc.dataShards + enc.parityShards)).toNat :=
    @advance_iterate { enc with shardCache := data ++ enc.shardCache.drop enc.dataShards } _ _ _ h.paws
      (paws_pos (by omega) h.le) hn
  obtain ⟨next', hadv, hnext'⟩ := hids (parity (grp.map (pad m))).length
  have hps : ∀ s ∈ ps, s.cap = maxPacketSize ∧ off + 6 ≤ s.len := by
    intro s hs
    obtain ⟨k, hk, rfl⟩ := List.mem_iff_getElem.mp hs
    obtain ⟨x, hx, hx'⟩ := hget k _ (List.getElem?_eq_getElem (hpsl ▸ hk))
    rw [List.getElem?_eq_getElem hk] at hx
    cases hx
    exact ⟨hx'.cap, by rw [hx'.len]; omega⟩
  refine ⟨{ enc with next := next', shardCache := data ++ ps }, ps.map Slice.bytes, ?_,
    ⟨rfl, rfl, h.size, h.pos, h.le, h.paws, h.head, h.payload, ?_, ?_, ?_, h.codec⟩, ?_, rfl, rfl, ?_, ?_⟩
  · rw [heq, codeWord, hmd, hword, henc, Go.ok_bind, afterCodec, List.drop_left' hgrp, hall, hadv]
    rfl
  · show (data ++ ps).length = _
    rw [List.length_append, hdlen, hpsl, hclen]
  · intro s hs
    rcases List.mem_append.mp hs with hs | hs
    · exact hdcap s hs
    · exact (hps s hs).1
  · intro _ s hs
    rw [List.drop_left' hdlen] at hs
    exact (hps s hs).2
  · rw [hnext', hclen]
  · rw [List.length_map, hpsl, hclen]
  · intro k code hk
    obtain ⟨s, hs, hsl⟩ := hget k code hk
    obtain ⟨pre, hpre, hbytes⟩ := hsl.bytes
    obtain ⟨id, hid, hidn⟩ := hids k
    refine ⟨s.bytes, by rw [List.getElem?_map, hs]; rfl, pre, id, hpre, hidn, ?_⟩
    rw [hbytes, hid]

/-! ## One packet -/

/-- What `encode` leaves behind: the group still collects, or it is full and
its parity ids are used, by parity packets or by none. -/
inductive Encoded (d p off : Nat) (parity : List Bytes → List Bytes) (n : Nat) (grp : List Bytes) (late : Prop)
    (enc' : FecEncoder) : List Bytes → Prop where
  | collecting (h : Collects enc' d p off parity n grp) : Encoded d p off parity n grp late enc' []
  | skipped (hl : late) (full : grp.length = d) (h : Collects enc' d p off parity (n + p) []) :
    Encoded d p off parity n grp late enc' []
  | made {ps : List Bytes} (full : grp.length = d) (h : Collects enc' d p off parity (n + p) [])
      (length : ps.length = p) (fits : off + 6 + longest grp ≤ maxPacketSize)
      (get : ∀ (k : Nat) (code : Bytes), (parity (grp.map (pad (longest grp))))[k]? = some code →
        ∃ b, ps[k]? = some b ∧ IsParity d p off (n + k) code b) : Encoded d p off parity n grp late enc' ps

/-- A full cache, entry by entry. -/
theorem holds_of_shards {cache : List Slice} {size : Nat} (hc : cache.length = d + p) (hg : grp.length = d)
    (hcap : ∀ s ∈ cache, s.cap = maxPacketSize)
    (h : ∀ (i : Nat) (s : Bytes), grp[i]? = some s → ∃ sl : Slice, cache[i]? = some sl ∧
      sl.bytes.drop (off + 6) = s ∧ off + 6 + s.length = sl.len ∧ sl.len ≤ size) :
    List.Forall₂ (HoldsShard off size) (cache.take d) grp := by
  refine List.forall₂_of_length_eq_of_get (by rw [List.length_take, hc, hg]; omega) fun i h1 h2 => ?_
  obtain ⟨sl, hsl, hrest⟩ := h i _ (List.getElem?_eq_getElem h2)
  have hi : (cache.take d)[i]? = some sl := by
    rw [List.getElem?_take_of_lt (by omega)]
    exact hsl
  have heq : (cache.take d).get ⟨i, h1⟩ = sl := (List.getElem?_eq_some_iff.mp hi).2
  rw [heq]
  exact ⟨hcap sl (List.mem_of_getElem? hsl), hrest⟩

theorem emptied_group (h : Shape enc d p off parity) (hn : enc.next.toNat = n % (pawsOf (d + p)).toNat)
    (hal : n % (d + p) = 0) (hc : enc.shardCount = 0) (hm : enc.maxSize = 0) : Collects enc d p off parity n [] :=
  { h with next := hn, count := hc, few := h.pos, aligned := hal, room := by rw [hm]; exact Nat.zero_le _,
           top := hm, shards := by simp }

/-- **One `encode`.** The packet takes the next id in its header. -/
theorem encode_spec (h : Collects enc d p off parity n grp) {b : Bytes} (hb : off + 8 ≤ b.length)
    (hb' : b.length ≤ maxPacketSize) (hne : ∀ s ∈ grp, 0 < s.length) (now : Int) (rto : UInt32) : ∃ enc' ps,
    enc.encode b now rto = .ok (enc', b.take off ++ fecHeader enc.next typeData ++ enc.shardOf b, ps) ∧
    Encoded d p off parity (n + 1) (grp ++ [enc.shardOf b]) ((rto.toNat : Int) ≤ now - enc.tsLatestPacket) enc' ps := by
  obtain ⟨enc₁, hcol, hshape, hnext, hcount, hmax, htop, hshards⟩ := collect_spec h hb hb' now
  have hfew := h.few
  have hal := h.aligned
  have hsucc : (n + 1) % (d + p) = (grp.length + 1) % (d + p) := by rw [← hal, Nat.mod_add_mod]
  have hlen : (grp ++ [enc.shardOf b]).length = grp.length + 1 := by simp
  rw [encode, hcol, Go.ok_bind]
  dsimp only
  by_cases hfull : grp.length + 1 = d
  · have hal' : (n + 1 + p) % (d + p) = 0 := by
      rw [Nat.add_mod, hsucc, hfull, ← Nat.add_mod, Nat.mod_self]
    have hroom : (n + 1) % (pawsOf (d + p)).toNat + p ≤ (pawsOf (d + p)).toNat := by
      rcases Nat.eq_zero_or_pos p with rfl | hp
      · exact Nat.le_of_lt (Nat.mod_lt _ (paws_pos (by omega) h.le))
      · refine group_room (r := d) (by omega) h.le ?_ (Nat.le_refl _)
        rw [hsucc, hfull, Nat.mod_eq_of_lt (by omega)]
    rw [if_neg (by rw [hcount, hshape.data]; exact not_not_intro hfull)]
    have hshape₀ : Shape { enc₁ with shardCount := 0, maxSize := 0 } d p off parity := { hshape with }
    by_cases hrto : (rto.toNat : Int) ≤ now - enc.tsLatestPacket
    · rw [if_pos hrto]
      refine ⟨_, _, rfl, .skipped hrto (by omega) (emptied_group { hshape₀ with } ?_ hal' rfl rfl)⟩
      show ((enc₁.next + UInt32.ofNat enc₁.parityShards) % enc₁.paws).toNat = _
      rw [hshape.par, hshape.paws]
      exact next_add hnext hroom
    · rw [if_neg hrto]
      have hholds := holds_of_shards hshape.cache (by omega) hshape.cap hshards
      have hne' : ∀ s ∈ grp ++ [enc.shardOf b], 0 < s.length := by
        intro s hs
        rcases List.mem_append.mp hs with hs | hs
        · exact hne s hs
        · obtain rfl := List.mem_singleton.mp hs
          rw [shardOf_length (by rw [h.payload]; exact hb), h.payload]
          omega
      obtain ⟨enc', ps, hmk, hsh', hnext', hc', hm', hpl, hget⟩ :=
        makeParity_spec hshape₀ hnext hholds (by omega) hne' hmax
      have hm : enc₁.maxSize - (off + 6) = longest (grp ++ [enc.shardOf b]) := by omega
      rw [hm] at hget
      refine ⟨enc', ps, ?_, .made (by omega) (emptied_group hsh' hnext' hal' hc' hm') hpl (by omega) hget⟩
      rw [hmk]
      rfl
  · rw [if_pos (by rw [hcount, hshape.data]; exact hfull)]
    refine ⟨enc₁, [], rfl, .collecting { hshape with
      next := hnext, count := by rw [hcount, hlen], few := by omega, aligned := ?_, room := hmax,
      top := by rw [htop, if_neg (by simp)], shards := hshards }⟩
    rw [hsucc, hlen, Nat.mod_eq_of_lt (by omega)]

end

end FecEncoder
end KcpGo.L2
