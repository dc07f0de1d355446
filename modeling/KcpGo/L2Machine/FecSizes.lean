import KcpGo.L2Machine.FecEncoderSpec
import KcpGo.L2Machine.FecRecover

/-!
# How long FEC packets are

The sizes depend on the codec only through the lengths of what it returns
(`Lib.Sized`), so they are bounded for every codec, shard count and sequence
of packet sizes.

* `FecEncoder.Sound`: the slices of the cache have their capacity, and the
  running maximum of the group is below the limit of its packets.
  `encode_sound`: every call returns, the parity packets are no longer than
  that limit. `storeParity` of the caller keeps it. `Numbers` says which ids
  the call uses.
* `FecDecoder.recovered_le`: a recovered shard fits a pool buffer.
-/
namespace KcpGo.L2

open KcpGo.L1

/-- `Encode` and `ReconstructData` keep to the lengths of their shards. -/
def Lib.Sized (lib : Lib) : Prop := ∀ d p c, lib.newCodec d p = some c → c.Sized d p

namespace FecEncoder

/-- Packets of the group have at least `low` and at most `lim` bytes. -/
structure Sound (off low lim : Nat) (enc : FecEncoder) : Prop extends Layout off enc where
  few : enc.shardCount < enc.dataShards
  room : enc.maxSize ≤ lim
  grown : 0 < enc.shardCount → low ≤ enc.maxSize
  shards : ∀ s ∈ enc.shardCache.take enc.shardCount, off + 6 ≤ s.len ∧ s.len ≤ enc.maxSize
  codec : enc.codec.Sized enc.dataShards enc.parityShards

/-- A parity packet: anything in front, a header and the code's bytes. -/
def ParityPacket (off : Nat) (b : Bytes) : Prop :=
  ∃ (pre : Bytes) (id : UInt32) (code : Bytes), pre.length = off ∧ b = pre ++ fecHeader id typeParity ++ code

/-- The id `k` packets after `next`. -/
def after (paws : UInt32) (k : Nat) (next : UInt32) : UInt32 := (fun x => (x + 1) % paws)^[k] next

/-- The parity packets of a full group with their ids from `next` on, or none
and their ids skipped. -/
inductive Parity (off size p : Nat) (paws next next' : UInt32) : List Bytes → Prop where
  | skipped (h : next' = (next + UInt32.ofNat p) % paws) : Parity off size p paws next next' []
  | made {ps : List Bytes} (length : ps.length = p) (h : next' = after paws p next)
      (get : ∀ (k : Nat) (x : Bytes), ps[k]? = some x → ∃ pre code : Bytes, pre.length = off ∧
        x = pre ++ fecHeader (after paws k next) typeParity ++ code ∧ x.length = size) :
          Parity off size p paws next next' ps

/-- The counts do not change. -/
structure SameCounts (enc enc' : FecEncoder) : Prop where
  data : enc'.dataShards = enc.dataShards
  par : enc'.parityShards = enc.parityShards
  paws : enc'.paws = enc.paws

/-- The ids that `encode` uses: one for the packet, and those of the parity
once the group is full. -/
inductive Numbers (off low lim : Nat) (enc enc' : FecEncoder) : List Bytes → Prop where
  | joined (few : enc.shardCount + 1 < enc.dataShards) (count : enc'.shardCount = enc.shardCount + 1)
      (next : enc'.next = (enc.next + 1) % enc.paws) : Numbers off low lim enc enc' []
  | closed {ps : List Bytes} {size : Nat} (full : enc.shardCount + 1 = enc.dataShards) (count : enc'.shardCount = 0)
      (lower : low ≤ size) (upper : size ≤ lim)
      (parity : Parity off size enc.parityShards enc.paws ((enc.next + 1) % enc.paws) enc'.next ps) :
      Numbers off low lim enc enc' ps

section
variable {enc : FecEncoder} {off low lim : Nat}

theorem advance_after (k : Nat) (enc : FecEncoder) :
    advance^[k] enc = { enc with next := after enc.paws k enc.next } := by
  induction k generalizing enc with
  | zero => rfl
  | succ k ih => rw [Function.iterate_succ_apply, ih]; rfl

theorem Parity.packets {size p : Nat} {paws next next' : UInt32} {ps : List Bytes}
    (h : Parity off size p paws next next' ps) :
    (ps = [] ∨ ps.length = p) ∧ ∀ x ∈ ps, ParityPacket off x ∧ x.length = size := by
  cases h with
  | skipped => exact ⟨.inl rfl, by simp⟩
  | made length _ get =>
    refine ⟨.inr length, fun x hx => ?_⟩
    obtain ⟨k, hk⟩ := List.mem_iff_getElem?.mp hx
    obtain ⟨pre, code, hpre, hx, hlen⟩ := get k x hk
    exact ⟨⟨pre, _, code, hpre, hx⟩, hlen⟩

theorem newFECEncoder_sound {newCodec : Nat → Nat → Option Codec} {d p : Nat}
    (hl : ∀ c, newCodec d p = some c → c.Sized d p)
    (hoff : off + 6 ≤ maxPacketSize) (h : newFECEncoder newCodec d p off = some enc) : Sound off low lim enc := by
  unfold newFECEncoder at h
  split at h
  · cases h
  rename_i h0
  obtain ⟨c, hcodec, rfl⟩ := Option.map_eq_some_iff.mp h
  have hslice : ∀ s ∈ List.replicate (d + p) (Slice.make maxPacketSize), s = Slice.make maxPacketSize :=
    fun s hs => List.eq_of_mem_replicate hs
  refine ⟨⟨rfl, rfl, List.length_replicate, fun s hs => ?_, fun s hs => ?_⟩, ?_, Nat.zero_le _,
    fun h => absurd h (Nat.lt_irrefl _), by simp, hl c hcodec⟩
  · rw [hslice s hs, Slice.make_cap]
  · rw [hslice s (List.mem_of_mem_drop hs)]
    exact hoff
  · show 0 < d
    omega

theorem take_succ_set {α : Type} {l : List α} {i : Nat} (h : i < l.length) (x : α) :
    (l.set i x).take (i + 1) = l.take i ++ [x] := by
  have hlen : (l.take i).length = i := List.length_take_of_le (Nat.le_of_lt h)
  have htake : (l.take i ++ ([x] ++ l.drop (i + 1))).take (i + 1) = l.take i ++ [x] := by
    rw [← List.append_assoc]
    exact List.take_left' (by rw [List.length_append, hlen, List.length_singleton])
  rw [List.set_eq_take_append_cons_drop, if_pos h]
  exact htake

/-- The encoder with the packet in its cache. -/
theorem Sound.collect (h : Sound off low lim enc) (hlow : off + 8 ≤ low) (hlim : lim ≤ maxPacketSize) {b : Bytes}
    (hb : low ≤ b.length) (hb' : b.length ≤ lim) (now : Int) : ∃ enc',
    enc.collect b now = .ok (enc', b.take off ++ fecHeader enc.next typeData ++ enc.shardOf b) ∧ Layout off enc' ∧
    SameCounts enc enc' ∧ enc'.codec = enc.codec ∧ enc'.next = (enc.next + 1) % enc.paws ∧
    enc'.shardCount = enc.shardCount + 1 ∧ low ≤ enc'.maxSize ∧ enc'.maxSize ≤ lim ∧
    ∀ s ∈ enc'.shardCache.take enc'.shardCount, off + 6 ≤ s.len ∧ s.len ≤ enc'.maxSize := by
  have hidx : enc.shardCount < enc.shardCache.length := by
    rw [h.cache]
    have := h.few
    omega
  obtain ⟨sl, hcap, hlen, -, -, hcol⟩ := collect_eq (b := b) h.toLayout hidx (by omega) (by omega) now
  refine ⟨_, hcol, ⟨h.head, h.payload, (List.length_set ..).trans h.cache, ?_, ?_⟩, ⟨rfl, rfl, rfl⟩, rfl, rfl, rfl,
    ?_, ?_, ?_⟩
  · intro s hs
    rcases List.mem_or_eq_of_mem_set hs with hs | rfl
    · exact h.cap s hs
    · exact hcap
  · show ∀ s ∈ (enc.shardCache.set enc.shardCount sl).drop enc.dataShards, off + 6 ≤ s.len
    rw [List.drop_set_of_lt h.few]
    exact h.long
  · exact Nat.le_trans hb (Nat.le_max_right _ _)
  · exact Nat.max_le.mpr ⟨h.room, hb'⟩
  · show ∀ s ∈ (enc.shardCache.set enc.shardCount sl).take (enc.shardCount + 1),
      off + 6 ≤ s.len ∧ s.len ≤ max enc.maxSize b.length
    intro s hs
    rw [take_succ_set hidx] at hs
    rcases List.mem_append.mp hs with hs | hs
    · obtain ⟨h1, h2⟩ := h.shards s hs
      exact ⟨h1, Nat.le_trans h2 (Nat.le_max_left _ _)⟩
    · rw [List.mem_singleton.mp hs, hlen]
      exact ⟨by omega, Nat.le_max_right _ _⟩

/-- The encoder does not mind what its caller leaves in the parity slices. -/
theorem Sound.scribble (h : Sound off low lim enc) {ps : List Slice} (hlen : ps.length = enc.parityShards)
    (hps : ∀ sl ∈ ps, sl.cap = maxPacketSize ∧ off + 6 ≤ sl.len) :
    Sound off low lim { enc with shardCache := enc.shardCache.take enc.dataShards ++ ps } := by
  have htake : (enc.shardCache.take enc.dataShards).length = enc.dataShards := by
    rw [List.length_take, h.cache]
    omega
  refine ⟨⟨h.head, h.payload, ?_, fun sl hsl => ?_, ?_⟩, h.few, h.room, h.grown, ?_, h.codec⟩
  · show (enc.shardCache.take enc.dataShards ++ ps).length = _
    rw [List.length_append, htake, hlen]
  · rcases List.mem_append.mp hsl with hsl | hsl
    · exact h.cap sl (List.mem_of_mem_take hsl)
    · exact (hps sl hsl).1
  · show ∀ sl ∈ (enc.shardCache.take enc.dataShards ++ ps).drop enc.dataShards, off + 6 ≤ sl.len
    rw [List.drop_left' htake]
    exact fun sl hsl => (hps sl hsl).2
  · show ∀ sl ∈ (enc.shardCache.take enc.dataShards ++ ps).take enc.shardCount, off + 6 ≤ sl.len ∧ sl.len ≤ enc.maxSize
    rw [List.take_append_of_le_length (by rw [htake]; exact Nat.le_of_lt h.few), List.take_take,
      Nat.min_eq_left (Nat.le_of_lt h.few)]
    exact h.shards

/-- A new group. -/
theorem Layout.restart (h : Layout off enc) (hd : 0 < enc.dataShards)
    (hc : enc.codec.Sized enc.dataShards enc.parityShards)
    (hcount : enc.shardCount = 0) (hmax : enc.maxSize = 0) : Sound off low lim enc where
  toLayout := h
  few := by omega
  room := by omega
  grown hpos := by omega
  shards s hs := by
    rw [hcount] at hs
    exact absurd hs (by simp)
  codec := hc

/-- **The parity of a full group.** -/
theorem makeParity_sound {size : Nat} (h : Layout off enc) (hd : 0 < enc.dataShards)
    (hc : enc.codec.Sized enc.dataShards enc.parityShards) (hlo : off + 8 ≤ size) (hsize : size ≤ maxPacketSize)
    (hs : ∀ s ∈ enc.shardCache.take enc.dataShards, off + 6 ≤ s.len ∧ s.len ≤ size) (hcount : enc.shardCount = 0)
    (hmax : enc.maxSize = 0) : ∃ enc' ps, enc.makeParity size = .ok (enc', ps) ∧ Sound off low lim enc' ∧
      SameCounts enc enc' ∧ enc'.shardCount = 0 ∧ Parity off size enc.parityShards enc.paws enc.next enc'.next ps := by
  obtain ⟨data, hdlen, hdcap, heq⟩ := makeParity_eq h (by omega) hsize hs
  have hword : (codeWord off size enc).length = enc.dataShards + enc.parityShards := by
    rw [codeWord, List.length_append, List.length_map, List.length_map, ← List.length_append, List.take_append_drop,
      h.cache]
  have huni : Codec.Uniform (size - (off + 6)) (codeWord off size enc) := by
    intro w hw
    rcases List.mem_append.mp hw with hw | hw
    · obtain ⟨s, hm, rfl⟩ := List.mem_map.mp hw
      have := (hs s hm).2
      refine pad_length ?_
      rw [List.length_drop, Slice.bytes_length]
      omega
    · obtain ⟨s, hm, rfl⟩ := List.mem_map.mp hw
      have : s.mem.length = maxPacketSize := h.cap s (List.mem_of_mem_drop hm)
      rw [List.length_drop, List.length_take_of_le (by omega)]
  have hplen : (enc.shardCache.drop enc.dataShards).length = enc.parityShards := by
    rw [List.length_drop, h.cache]
    omega
  have hkeep : ∀ {ps : List Slice} (next : UInt32), ps.length = enc.parityShards →
      (∀ s ∈ ps, s.cap = maxPacketSize ∧ off + 6 ≤ s.len) →
      Sound off low lim { enc with next := next, shardCache := data ++ ps } := by
    intro ps next hlen hps
    refine Layout.restart ⟨h.head, h.payload, ?_, fun s hs => ?_, fun s hs => ?_⟩ hd hc hcount hmax
    · show (data ++ ps).length = _
      rw [List.length_append, hdlen, hlen]
    · rcases List.mem_append.mp hs with hs | hs
      · exact hdcap s hs
      · exact (hps s hs).1
    · rw [List.drop_left' hdlen] at hs
      exact (hps s hs).2
  obtain ⟨r, hr, hout⟩ := hc.encode (size - (off + 6)) _ (by omega) hword huni
  rw [heq, hr, Go.ok_bind]
  cases r with
  | none =>
    refine ⟨_, [], rfl, ?_, ⟨rfl, rfl, rfl⟩, hcount, .skipped rfl⟩
    exact hkeep _ hplen fun s hs => ⟨h.cap s (List.mem_of_mem_drop hs), h.long s hs⟩
  | some out =>
    obtain ⟨hol, hou⟩ := hout out rfl
    have hcodes : (out.drop enc.dataShards).length = enc.parityShards := by
      rw [List.length_drop, hol]
      omega
    obtain ⟨ps, hall, hpsl, hget⟩ := @sealAll_ok off _ hsize (enc.shardCache.drop enc.dataShards)
      (out.drop enc.dataShards)
      { enc with shardCache := data ++ enc.shardCache.drop enc.dataShards } h.head h.payload
      (by rw [hplen, hcodes]) (fun s hs => ⟨h.cap s (List.mem_of_mem_drop hs), h.long s hs⟩)
      fun c hc => by rw [hou c (List.mem_of_mem_drop hc)]; omega
    have hsl : ∀ s ∈ ps, ∃ id code, SealedSlice off size id code s := by
      intro s hs
      obtain ⟨k, hk, rfl⟩ := List.mem_iff_getElem.mp hs
      obtain ⟨x, hx, hx'⟩ := hget k _ (List.getElem?_eq_getElem (hpsl ▸ hk))
      rw [List.getElem?_eq_getElem hk] at hx
      cases hx
      exact ⟨_, _, hx'⟩
    refine ⟨{ enc with next := after enc.paws enc.parityShards enc.next, shardCache := data ++ ps },
      ps.map Slice.bytes, ?_, ?_,
      ⟨rfl, rfl, rfl⟩, hcount, .made ?_ rfl ?_⟩
    · rw [afterCodec, hall, hcodes, advance_after]
      rfl
    · refine hkeep _ (by rw [hpsl, hcodes]) fun s hs => ?_
      obtain ⟨id, code, hx⟩ := hsl s hs
      exact ⟨hx.cap, by rw [hx.len]; omega⟩
    · rw [List.length_map, hpsl, hcodes]
    · intro k x hx
      rw [List.getElem?_map, Option.map_eq_some_iff] at hx
      obtain ⟨s, hs, rfl⟩ := hx
      have hk : k < (out.drop enc.dataShards).length := hpsl ▸ (List.getElem?_eq_some_iff.mp hs).1
      obtain ⟨s', hs', hseal⟩ := hget k _ (List.getElem?_eq_getElem hk)
      rw [hs] at hs'
      cases hs'
      rw [advance_after] at hseal
      obtain ⟨pre, hpre, hbytes⟩ := hseal.bytes
      exact ⟨pre, _, hpre, hbytes, by rw [Slice.bytes_length, hseal.len]⟩

/-- **One `encode`, for any codec.** -/
theorem encode_sound (h : Sound off low lim enc) (hlow : off + 8 ≤ low) (hlim : lim ≤ maxPacketSize) {b : Bytes}
    (hb : low ≤ b.length) (hb' : b.length ≤ lim) (now : Int) (rto : UInt32) : ∃ enc' ps,
    enc.encode b now rto = .ok (enc', b.take off ++ fecHeader enc.next typeData ++ enc.shardOf b, ps) ∧
    Sound off low lim enc' ∧ SameCounts enc enc' ∧ Numbers off low lim enc enc' ps := by
  obtain ⟨enc₁, hcol, hlay, hsame, hc, hnext, hcount, hlo, hhi, hshards⟩ := h.collect hlow hlim hb hb' now
  have hcodec : enc₁.codec.Sized enc₁.dataShards enc₁.parityShards := by
    rw [hc, hsame.data, hsame.par]
    exact h.codec
  have hfew := h.few
  have hpos : 0 < enc₁.dataShards := by
    rw [hsame.data]
    omega
  rw [encode, hcol, Go.ok_bind]
  dsimp only
  by_cases hfull : enc₁.shardCount = enc₁.dataShards
  · rw [if_neg (not_not_intro hfull)]
    have hfull' : enc.shardCount + 1 = enc.dataShards := by rw [← hcount, hfull, hsame.data]
    have hlay₀ : Layout off { enc₁ with shardCount := 0, maxSize := 0 } := { hlay with }
    by_cases hrto : (rto.toNat : Int) ≤ now - enc.tsLatestPacket
    · rw [if_pos hrto]
      refine ⟨_, _, rfl, Layout.restart { hlay₀ with } hpos hcodec rfl rfl, { hsame with },
        .closed hfull' rfl hlo hhi (.skipped ?_)⟩
      rw [← hnext, ← hsame.par, ← hsame.paws]
      rfl
    · rw [if_neg hrto]
      obtain ⟨enc₂, ps, hmake, hsound, hsame₂, hzero, hparity⟩ := @makeParity_sound _ off low lim enc₁.maxSize hlay₀
        hpos hcodec (by omega) (by omega) (hfull ▸ hshards) rfl rfl
      rw [hmake]
      refine ⟨enc₂, ps, rfl, hsound,
        ⟨hsame₂.data.trans hsame.data, hsame₂.par.trans hsame.par, hsame₂.paws.trans hsame.paws⟩,
        .closed hfull' hzero hlo hhi ?_⟩
      rw [← hnext, ← hsame.par, ← hsame.paws]
      exact hparity
  · rw [if_pos hfull]
    have hless : enc₁.shardCount < enc₁.dataShards := by
      rw [hsame.data, hcount] at hfull ⊢
      omega
    refine ⟨enc₁, [], rfl, ⟨hlay, hless, hhi, fun _ => hlo, hshards, hcodec⟩, hsame, .joined ?_ hcount hnext⟩
    rw [← hcount, ← hsame.data]
    exact hless

theorem Numbers.packets {enc' : FecEncoder} {ps : List Bytes} (h : Numbers off low lim enc enc' ps) :
    (ps = [] ∨ ps.length = enc.parityShards) ∧ ∀ x ∈ ps, ParityPacket off x ∧ low ≤ x.length ∧ x.length ≤ lim := by
  cases h with
  | joined => exact ⟨.inl rfl, by simp⟩
  | closed _ _ lower upper parity =>
    obtain ⟨hlen, hps⟩ := parity.packets
    refine ⟨hlen, fun x hx => ?_⟩
    obtain ⟨hx, rfl⟩ := hps x hx
    exact ⟨hx, lower, upper⟩

end

end FecEncoder

namespace FecDecoder

variable {lib : Lib} {dec dec' : FecDecoder}

theorem recover_le (h : Shape lib dec) (hl : lib.Sized) {id : UInt32} {l : List Bytes}
    (hf : Full dec id l) {rs : List Bytes}
    (hr : dec.recover l = .ok rs) : ∀ r ∈ rs, r.length ≤ maxPacketSize := by
  obtain ⟨x, hs, he, h0, hfill⟩ := recover_pop h hf
  have hmax : x.maxlen ≤ maxPacketSize := by
    rcases hs.lower with hz | ⟨pkt, hp, hm⟩
    · omega
    · have := (fecData_length (hf.pkts pkt (List.mem_reverse.mp hp))).2
      omega
  rw [he, reconstruct] at hr
  split at hr
  · cases hr
    simp
  rw [hfill, Go.ok_bind] at hr
  obtain ⟨out, hout, hr⟩ := Go.bind_ok hr
  cases out with
  | none =>
    cases hr
    simp
  | some out =>
    have hle := (hl _ _ _ h.codec).reconstruct x.maxlen _ out
      (by rw [List.length_map, hs.length, h.decodeCache, h.size])
      (fun s hm => by
        obtain ⟨o, ho, rfl⟩ := List.mem_map.mp hm
        exact padded_length hs ho)
      (by rw [present_padded hs h0, List.length_reverse]; exact hf.enough) hout
    dsimp only at hr
    split at hr
    · cases hr
    · cases hr
      intro r hm
      obtain ⟨⟨o, s⟩, hz, hsome⟩ := List.mem_filterMap.mp hm
      have hmem := (List.of_mem_zip (List.mem_of_mem_take hz)).2
      dsimp only at hsome
      split at hsome
      · cases hsome
        exact Nat.le_trans (hle _ hmem) hmax
      · cases hsome

/-- **A recovered shard fits a pool buffer.** -/
theorem recovered_le (h : Inv lib dec) (hl : lib.Sized) {bts : Bytes} (hmin : fecHeaderSizePlus2 ≤ bts.length)
    {rs : List Bytes} (hd : dec.decode lib bts = .ok (dec', rs)) : ∀ r ∈ rs, r.length ≤ maxPacketSize := by
  cases decode_cases hd with
  | rejected => simp
  | tuned => simp
  | repeated => simp
  | stored => simp
  | completed hp _ hf hh hn hlen hrec => exact recover_le h.toShape hl (h.full hp hf hh hmin hn hlen) hrec

end FecDecoder
end KcpGo.L2
