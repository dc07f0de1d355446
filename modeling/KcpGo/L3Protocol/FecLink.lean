import KcpGo.Core.Epoch
import KcpGo.Core.LTS
import KcpGo.L2Machine.FecEncoderSpec
import KcpGo.L2Machine.FecRecover

/-!
# An encoder and a decoder over a lossy channel

Packets are encoded, the parity buffers that `encode` returned may be changed
in any way by the caller, and every packet made may be delivered any number
of times, in any order, or never. Sequence ids before wrapping and the
size-prefixed payloads are kept as ghost state.

* `Sender.step`: every packet made has the id, the type and the bytes of its
  place in the code word of its group.
-/
namespace KcpGo.L3.Fec

open KcpGo.L1 KcpGo.L2 KcpGo.Serial

structure FecLink where
  enc : FecEncoder
  dec : FecDecoder
  /-- The size-prefixed payloads of the packets encoded. -/
  shards : List Bytes
  /-- The packets made, with their ids before wrapping. -/
  sent : List (Nat × Bytes)
  /-- The ids delivered, before wrapping. -/
  arrived : List Nat

inductive LinkEv where
  | send (b : Bytes) (now : Int) (rto : UInt32)
  | scribble (ps : List Slice)
  | deliver (u : Nat) (pkt : Bytes)

/-- The ids `j` packets take, with their parity, made or skipped. -/
def idsOf (d p j : Nat) : Nat := j / d * (d + p) + j % d

/-- The data shards of group `g`. -/
def group (d : Nat) (shards : List Bytes) (g : Nat) : List Bytes := (shards.drop (g * d)).take d

namespace FecLink

def issued (s : FecLink) : Nat := idsOf s.enc.dataShards s.enc.parityShards s.shards.length

/-- The newest id delivered. -/
def newest (s : FecLink) : Nat := s.arrived.foldr max 0

/-- The parity packets behind `n` ids, without what precedes their headers. -/
def numbered (off n : Nat) (ps : List Bytes) : List (Nat × Bytes) := (ps.zipIdx n).map fun x => (x.2, x.1.drop off)

def next (lib : Lib) (off : Nat) (s : FecLink) : LinkEv → Option FecLink
  | .send b now rto =>
    if off + 8 ≤ b.length ∧ b.length ≤ maxPacketSize then
      match s.enc.encode b now rto with
      | .ok (enc, b', ps) =>
        some { s with enc := enc
                      shards := s.shards ++ [s.enc.shardOf b]
                      sent := s.sent ++ (s.issued, b'.drop off) :: numbered off (s.issued + 1) ps }
      | .error _ => none
    else none
  | .scribble ps =>
    if ps.length = s.enc.parityShards ∧ ∀ sl ∈ ps, sl.cap = maxPacketSize ∧ off + 6 ≤ sl.len then
      some { s with enc := { s.enc with shardCache := s.enc.shardCache.take s.enc.dataShards ++ ps } }
    else none
  | .deliver u pkt =>
    if (u, pkt) ∈ s.sent then
      match s.dec.decode lib pkt with
      | .ok (dec, _) => some { s with dec := dec, arrived := u :: s.arrived }
      | .error _ => none
    else none

end FecLink

def fecLink (lib : Lib) (d p off : Nat) : LTS FecLink LinkEv :=
  LTS.ofFn (fun s => newFECEncoder lib.newCodec d p off = some s.enc ∧ newFECDecoder lib d p = some s.dec ∧
    s.shards = [] ∧ s.sent = [] ∧ s.arrived = []) (FecLink.next lib off)

/-! ## Groups -/

section
variable {d p j g r : Nat} {shards : List Bytes}

theorem idsOf_add (hr : r < d) : idsOf d p (g * d + r) = g * (d + p) + r := by
  rw [idsOf, block_div hr, block_mod hr]

theorem group_length : (group d shards g).length = min d (shards.length - g * d) := by
  rw [group, List.length_take, List.length_drop]

theorem mem_group {s : Bytes} (h : s ∈ group d shards g) : s ∈ shards := List.mem_of_mem_drop (List.mem_of_mem_take h)

theorem group_getElem? {i : Nat} (hi : i < d) : (group d shards g)[i]? = shards[g * d + i]? := by
  rw [group, List.getElem?_take_of_lt hi, List.getElem?_drop]

/-- A packet joins the last group. -/
theorem group_append_self (hj : shards.length = g * d + r) (hr : r < d) (x : Bytes) :
    group d (shards ++ [x]) g = group d shards g ++ [x] := by
  have hlen : (shards.drop (g * d)).length = r := by
    rw [List.length_drop]
    omega
  rw [group, group, List.drop_append_of_le_length (by omega),
    List.take_of_length_le (by rw [List.length_append, hlen, List.length_singleton]; omega),
    List.take_of_length_le (by omega)]

theorem group_append_ne (hj : shards.length = g * d + r) (hr : r < d) (x : Bytes) {g' : Nat} (hne : g' ≠ g) :
    group d (shards ++ [x]) g' = group d shards g' := by
  rcases Nat.lt_or_gt_of_ne hne with hlt | hgt
  · have := Nat.mul_le_mul_right d hlt
    rw [Nat.succ_mul] at this
    rw [group, group, List.drop_append_of_le_length (by omega),
      List.take_append_of_le_length (by rw [List.length_drop]; omega)]
  · have := Nat.mul_le_mul_right d hgt
    rw [Nat.succ_mul] at this
    rw [group, group, List.drop_eq_nil_of_le (by rw [List.length_append, List.length_singleton]; omega),
      List.drop_eq_nil_of_le (by omega)]

end

/-! ## The sender -/

/-- The packet with id `u` is what its place in its group demands. -/
structure Genuine (d p : Nat) (shards : List Bytes) (u : Nat) (pkt : Bytes) : Prop where
  id : (seqid pkt).toNat = u % (pawsOf (d + p)).toNat
  type : flag pkt = if u % (d + p) < d then typeData else typeParity
  lower : fecHeaderSizePlus2 ≤ pkt.length
  upper : pkt.length ≤ maxPacketSize
  data : u % (d + p) < d → shards[u / (d + p) * d + u % (d + p)]? = some (fecData pkt)

/-- The parity packets of group `g` are the code of its shards, filled up to one length. -/
def Coded (d p : Nat) (parity : List Bytes → List Bytes) (shards : List Bytes)
    (sent : List (Nat × Bytes)) (g : Nat) : Prop :=
  ∀ u pkt, (u, pkt) ∈ sent → u / (d + p) = g → d ≤ u % (d + p) → (group d shards g).length = d ∧
    (parity ((group d shards g).map (pad (longest (group d shards g)))))[u % (d + p) - d]? = some (fecData pkt)

structure Sender (d p off : Nat) (parity : List Bytes → List Bytes) (s : FecLink) : Prop where
  collects : s.enc.Collects d p off parity s.issued (group d s.shards (s.shards.length / d))
  sized : ∀ x ∈ s.shards, Sized x ∧ x.length ≤ maxPacketSize
  old : ∀ u pkt, (u, pkt) ∈ s.sent → u < s.issued
  genuine : ∀ u pkt, (u, pkt) ∈ s.sent → Genuine d p s.shards u pkt
  coded : ∀ g, Coded d p parity s.shards s.sent g

section
variable {d p off : Nat} {parity : List Bytes → List Bytes} {lib : Lib} {s s' : FecLink}
variable {pkt b x : Bytes}

theorem Genuine.append {shards : List Bytes} {u : Nat} (h : Genuine d p shards u pkt) (x : Bytes) :
    Genuine d p (shards ++ [x]) u pkt := by
  refine { h with data := fun hu => ?_ }
  have hget := h.data hu
  rw [List.getElem?_append_left (List.getElem?_eq_some_iff.mp hget).1]
  exact hget

theorem mem_numbered {n u : Nat} {ps : List Bytes} (h : (u, pkt) ∈ FecLink.numbered off n ps) :
    ∃ k b, u = n + k ∧ ps[k]? = some b ∧ pkt = b.drop off := by
  obtain ⟨⟨b, i⟩, hx, he⟩ := List.mem_map.mp h
  cases he
  obtain ⟨hn, hget⟩ := List.mem_zipIdx_iff_le_and_getElem?_sub.mp hx
  exact ⟨i - n, b, by omega, hget, rfl⟩

theorem numbered_mem {n k : Nat} {ps : List Bytes} (h : ps[k]? = some b) :
    (n + k, b.drop off) ∈ FecLink.numbered off n ps := by
  refine List.mem_map.mpr ⟨(b, n + k), List.mem_zipIdx_iff_le_and_getElem?_sub.mpr ⟨Nat.le_add_right _ _, ?_⟩, rfl⟩
  rw [Nat.add_sub_cancel_left]
  exact h

/-- The packet of the call. -/
theorem genuine_data {shards : List Bytes} {g r : Nat} {id : UInt32} (hr : r < d)
    (hj : shards.length = g * d + r) (hid : id.toNat = (g * (d + p) + r) % (pawsOf (d + p)).toNat)
    (hx : 2 ≤ x.length) (hx' : x.length + 6 ≤ maxPacketSize) :
    Genuine d p (shards ++ [x]) (g * (d + p) + r) (fecHeader id typeData ++ x) := by
  have hlen : (fecHeader id typeData ++ x).length = 6 + x.length := by
    rw [List.length_append, fecHeader_length]
  refine ⟨by rw [seqid_sealed, hid], ?_, ?_, by omega, fun _ => ?_⟩
  · rw [flag_sealed, block_mod (by omega), if_pos hr]
  · unfold fecHeaderSizePlus2
    omega
  · rw [block_div (by omega), block_mod (by omega), data_sealed, ← hj]
    simp

/-- A parity packet. -/
theorem genuine_parity (shards : List Bytes) {g k : Nat} {code : Bytes} (hk : k < p)
    (hb : FecEncoder.IsParity d p off (g * (d + p) + d + k) code b) (hc : 2 ≤ code.length)
    (hc' : code.length + 6 ≤ maxPacketSize) :
    Genuine d p shards (g * (d + p) + d + k) (b.drop off) ∧ fecData (b.drop off) = code := by
  obtain ⟨pre, id, hpre, hid, rfl⟩ := hb
  rw [List.append_assoc, List.drop_left' hpre]
  have hlen : (fecHeader id typeParity ++ code).length = 6 + code.length := by
    rw [List.length_append, fecHeader_length]
  have hmod : (g * (d + p) + d + k) % (d + p) = d + k := by
    rw [Nat.add_assoc]
    exact block_mod (by omega)
  refine ⟨⟨by rw [seqid_sealed, hid], ?_, ?_, by omega, fun hlt => ?_⟩, data_sealed _ _ _⟩
  · rw [flag_sealed, hmod, if_neg (by omega)]
  · unfold fecHeaderSizePlus2
    omega
  · rw [hmod] at hlt
    omega

theorem Sender.start (hc : ∀ c, lib.newCodec d p = some c → c.MDS d p parity) (hle : d + p ≤ 256)
    (henc : newFECEncoder lib.newCodec d p off = some s.enc) (hsh : s.shards = []) (hsent : s.sent = []) :
    Sender d p off parity s := by
  have hcol := FecEncoder.newFECEncoder_collects henc hle hc
  have hiss : s.issued = 0 := by simp [FecLink.issued, hsh, idsOf]
  refine ⟨?_, by simp [hsh], by simp [hsent], by simp [hsent], fun g => by simp [Coded, hsent]⟩
  rw [hiss, hsh]
  simpa [group] using hcol

theorem Sender.init (hc : ∀ c, lib.newCodec d p = some c → c.MDS d p parity) (hi : (fecLink lib d p off).init s) :
    Sender d p off parity s := by
  obtain ⟨henc, hdec, hsh, hsent, -⟩ := hi
  obtain ⟨hinv, hd, hp, -⟩ := FecDecoder.newFECDecoder_inv hdec
  refine Sender.start hc ?_ henc hsh hsent
  have := hinv.le
  have := hinv.size
  omega

/-- Where the encoder stands. -/
theorem Sender.stand (h : Sender d p off parity s) :
    ∃ g r, r < d ∧ s.shards.length = g * d + r ∧ s.shards.length / d = g ∧
    s.issued = g * (d + p) + r := by
  have hpos := h.collects.pos
  have hr := Nat.mod_lt s.shards.length hpos
  have hj := Nat.div_add_mod' s.shards.length d
  refine ⟨s.shards.length / d, s.shards.length % d, hr, hj.symm, rfl, ?_⟩
  rw [FecLink.issued, h.collects.data, h.collects.par]
  rfl

/-- The parity packets of other groups stay the code of their groups. -/
theorem coded_ne {shards : List Bytes} {sent new : List (Nat × Bytes)} {g g' r : Nat} (hr : r < d)
    (hj : shards.length = g * d + r) (hne : g' ≠ g) (hnew : ∀ u pkt, (u, pkt) ∈ new → u / (d + p) = g)
    (h : Coded d p parity shards sent g') : Coded d p parity (shards ++ [x]) (sent ++ new) g' := by
  rw [Coded, group_append_ne hj hr x hne]
  intro u pkt hu hg
  rcases List.mem_append.mp hu with hu | hu
  · exact h u pkt hu hg
  · exact absurd (hg.symm.trans (hnew u pkt hu)) hne

/-- No parity of the last group was made before. -/
theorem Sender.no_parity (h : Sender d p off parity s) {g r : Nat} (hn : s.issued = g * (d + p) + r) {u : Nat}
    (hu : (u, pkt) ∈ s.sent) (hg : u / (d + p) = g) : u % (d + p) < r := by
  have hlt := h.old u pkt hu
  have hdm := Nat.div_add_mod' u (d + p)
  rw [hg] at hdm
  omega

theorem Sender.encode (h : Sender d p off parity s) (hb : off + 8 ≤ b.length) (hb' : b.length ≤ maxPacketSize)
    (now : Int) (rto : UInt32) : ∃ enc' ps,
    s.enc.encode b now rto = .ok (enc', b.take off ++ fecHeader s.enc.next typeData ++ s.enc.shardOf b, ps) ∧
    FecEncoder.Encoded d p off parity (s.issued + 1) (group d s.shards (s.shards.length / d) ++ [s.enc.shardOf b])
      ((rto.toNat : Int) ≤ now - s.enc.tsLatestPacket) enc' ps := by
  refine FecEncoder.encode_spec h.collects hb hb' (fun x hx => ?_) now rto
  have := (h.sized x (mem_group hx)).1.1
  omega

/-- A packet and its parity are added. -/
theorem Sender.extend (h : Sender d p off parity s) {g r : Nat} (hr : r < d) (hj : s.shards.length = g * d + r)
    (hn : s.issued = g * (d + p) + r) (hx : Sized x ∧ x.length ≤ maxPacketSize) {new : List (Nat × Bytes)}
    (n' : Nat) (hn' : s'.issued = n') (hle : s.issued ≤ n') (hsh : s'.shards = s.shards ++ [x])
    (hsent : s'.sent = s.sent ++ new)
    (hcol : s'.enc.Collects d p off parity n' (group d s'.shards (s'.shards.length / d)))
    (hnew : ∀ u pkt, (u, pkt) ∈ new → u < n' ∧ u / (d + p) = g ∧ Genuine d p (s.shards ++ [x]) u pkt)
    (hcode : ∀ u pkt, (u, pkt) ∈ new → d ≤ u % (d + p) → (group d s.shards g ++ [x]).length = d ∧
      (parity ((group d s.shards g ++ [x]).map (pad (longest (group d s.shards g ++ [x])))))[u % (d + p) - d]? =
        some (fecData pkt)) :
    Sender d p off parity s' := by
  refine ⟨hn' ▸ hcol, fun y hy => ?_, fun u pkt hu => ?_, fun u pkt hu => ?_, fun g' => ?_⟩
  · rw [hsh] at hy
    rcases List.mem_append.mp hy with hy | hy
    · exact h.sized y hy
    · exact List.mem_singleton.mp hy ▸ hx
  · rw [hsent] at hu
    rw [hn']
    rcases List.mem_append.mp hu with hu | hu
    · exact Nat.lt_of_lt_of_le (h.old u pkt hu) hle
    · exact (hnew u pkt hu).1
  · rw [hsent] at hu
    rw [hsh]
    rcases List.mem_append.mp hu with hu | hu
    · exact (h.genuine u pkt hu).append x
    · exact (hnew u pkt hu).2.2
  · rw [hsh, hsent]
    by_cases hg : g' = g
    · subst hg
      rw [Coded, group_append_self hj hr x]
      intro u pkt hu hdiv hpar
      rcases List.mem_append.mp hu with hu | hu
      · have := h.no_parity hn hu hdiv
        omega
      · exact hcode u pkt hu hpar
    · exact coded_ne hr hj hg (fun u pkt hu => (hnew u pkt hu).2.1) (h.coded g')

/-- **Every packet made is genuine.** -/
theorem Sender.send (h : Sender d p off parity s) {now : Int} {rto : UInt32}
    (hs : s.next lib off (.send b now rto) = some s') : Sender d p off parity s' := by
  unfold FecLink.next at hs
  dsimp only at hs
  split at hs
  case isFalse => cases hs
  rename_i hlen
  obtain ⟨hb, hb'⟩ := hlen
  obtain ⟨enc', ps, henc, hres⟩ := h.encode hb hb' now rto
  obtain ⟨g, r, hr, hj, hdiv, hn⟩ := h.stand
  have hpl := h.collects.payload
  have hxlen : (s.enc.shardOf b).length = b.length - (off + 6) := by
    rw [FecEncoder.shardOf_length (by omega), hpl]
  have hsized : Sized (s.enc.shardOf b) := FecEncoder.shardOf_sized (by omega) hb'
  have hdrop : (b.take off ++ fecHeader s.enc.next typeData ++ s.enc.shardOf b).drop off =
      fecHeader s.enc.next typeData ++ s.enc.shardOf b := by
    rw [List.append_assoc]
    exact List.drop_left' (List.length_take_of_le (by omega))
  rw [henc] at hs
  dsimp only at hs
  rw [hdrop] at hs
  rw [hdiv] at hres
  generalize s.enc.shardOf b = x at *
  cases hs
  have hx : Sized x ∧ x.length ≤ maxPacketSize := ⟨hsized, by omega⟩
  have hself := group_append_self hj hr x
  have hlen' : (s.shards ++ [x]).length = g * d + (r + 1) := by
    rw [List.length_append, hj]
    rfl
  have hglen : (group d s.shards g ++ [x]).length = r + 1 := by
    rw [← hself, group_length, hlen']
    omega
  have hgen : Genuine d p (s.shards ++ [x]) s.issued (fecHeader s.enc.next typeData ++ x) := by
    rw [hn]
    exact genuine_data hr hj (by rw [← hn]; exact h.collects.next) hsized.1 (by omega)
  have hgdiv : s.issued / (d + p) = g := by
    rw [hn]
    exact block_div (by omega)
  have hgmod : s.issued % (d + p) = r := by
    rw [hn]
    exact block_mod (by omega)
  have hissued : ∀ enc : FecEncoder, enc.dataShards = d → enc.parityShards = p →
      ∀ dec sent arr, FecLink.issued ⟨enc, dec, s.shards ++ [x], sent, arr⟩ = idsOf d p (g * d + (r + 1)) := by
    intro enc hd hp dec sent arr
    simp only [FecLink.issued, hd, hp, hlen']
  -- the packet alone: it is data, so no parity is added
  have halone : ∀ n', s.issued + 1 ≤ n' → ∀ u pkt,
      (u, pkt) ∈ (s.issued, fecHeader s.enc.next typeData ++ x) :: FecLink.numbered off (s.issued + 1) [] →
      (u < n' ∧ u / (d + p) = g ∧ Genuine d p (s.shards ++ [x]) u pkt) ∧ u % (d + p) = r := by
    intro n' hn' u pkt hu
    obtain ⟨rfl, rfl⟩ : u = s.issued ∧ pkt = _ := by simpa [FecLink.numbered] using hu
    exact ⟨⟨by omega, hgdiv, hgen⟩, hgmod⟩
  -- the group is full: the next one starts behind its parity ids
  have hlast : r + 1 = d → idsOf d p (g * d + (r + 1)) = s.issued + 1 + p ∧
      group d (s.shards ++ [x]) ((s.shards ++ [x]).length / d) = [] := by
    intro hd
    have hnext : g * d + (r + 1) = (g + 1) * d + 0 := by
      rw [Nat.add_mul]
      omega
    have hz : (g + 1) * (d + p) = g * (d + p) + (d + p) := Nat.succ_mul _ _
    rw [hlen', hnext, idsOf_add (by omega), block_div (by omega)]
    refine ⟨by omega, List.eq_nil_of_length_eq_zero ?_⟩
    rw [group_length, hlen', hnext]
    omega
  cases hres with
  | collecting hcol =>
    have hfew := hcol.few
    rw [hglen] at hfew
    refine h.extend hr hj hn hx (s.issued + 1) ?_ (Nat.le_succ _) rfl rfl ?_
      (fun u pkt hu => (halone _ (Nat.le_refl _) u pkt hu).1) fun u pkt hu hpar => ?_
    · rw [hissued _ hcol.data hcol.par, idsOf_add hfew, hn]
      rfl
    · show enc'.Collects d p off parity _ (group d (s.shards ++ [x]) ((s.shards ++ [x]).length / d))
      rw [hlen', block_div hfew, hself]
      exact hcol
    · have := (halone _ (Nat.le_refl _) u pkt hu).2
      omega
  | skipped _ full hcol =>
    obtain ⟨hids, hnil⟩ := hlast (by omega)
    refine h.extend hr hj hn hx (s.issued + 1 + p) ?_ (by omega) rfl rfl ?_
      (fun u pkt hu => (halone _ (by omega) u pkt hu).1) fun u pkt hu hpar => ?_
    · rw [hissued _ hcol.data hcol.par, hids]
    · show enc'.Collects d p off parity _ (group d (s.shards ++ [x]) ((s.shards ++ [x]).length / d))
      rw [hnil]
      exact hcol
    · have := (halone (s.issued + 1) (Nat.le_refl _) u pkt hu).2
      omega
  | made full hcol hplen hfits hget =>
    obtain ⟨hids, hnil⟩ := hlast (by omega)
    have hd : r + 1 = d := by omega
    have hmds := hcol.codec
    have hbound : ∀ y ∈ group d s.shards g ++ [x], y.length ≤ longest (group d s.shards g ++ [x]) :=
      fun y hy => le_longest hy
    generalize hm : longest (group d s.shards g ++ [x]) = m at hfits hget hbound
    have hpadlen : ((group d s.shards g ++ [x]).map (pad m)).length = d := by rw [List.length_map, full]
    -- every parity packet is one of the code's shards
    have hpar : ∀ u pkt, (u, pkt) ∈ FecLink.numbered off (s.issued + 1) ps → ∃ k, k < p ∧ u = g * (d + p) + d + k ∧
        Genuine d p (s.shards ++ [x]) u pkt ∧ (parity ((group d s.shards g ++ [x]).map (pad m)))[k]? =
          some (fecData pkt) := by
      intro u pkt hu
      obtain ⟨k, b', rfl, hb', rfl⟩ := mem_numbered hu
      have hk : k < p := hplen ▸ (List.getElem?_eq_some_iff.mp hb').1
      obtain ⟨code, hcode⟩ : ∃ code, (parity ((group d s.shards g ++ [x]).map (pad m)))[k]? = some code :=
        ⟨_, List.getElem?_eq_getElem (by rw [hmds.length _ hpadlen]; exact hk)⟩
      obtain ⟨b'', hb'', hispar⟩ := hget k code hcode
      obtain rfl : b' = b'' := Option.some.inj (hb'.symm.trans hb'')
      have hclen : code.length = m := hmds.uniform m _ hpadlen (uniform_pad hbound) code (List.mem_of_getElem? hcode)
      have hm2 : 2 ≤ m := Nat.le_trans hsized.1 (hbound x (by simp))
      have heq : s.issued + 1 + k = g * (d + p) + d + k := by omega
      rw [heq] at hispar ⊢
      obtain ⟨h1, h2⟩ := genuine_parity (s.shards ++ [x]) hk hispar (by omega) (by omega)
      exact ⟨k, hk, rfl, h1, by rw [h2]; exact hcode⟩
    refine h.extend hr hj hn hx (s.issued + 1 + p) ?_ (by omega) rfl rfl ?_ (fun u pkt hu => ?_)
      fun u pkt hu hge => ⟨full, ?_⟩
    · rw [hissued _ hcol.data hcol.par, hids]
    · show enc'.Collects d p off parity _ (group d (s.shards ++ [x]) ((s.shards ++ [x]).length / d))
      rw [hnil]
      exact hcol
    · rcases List.mem_cons.mp hu with he | hu
      · cases he
        exact ⟨by omega, hgdiv, hgen⟩
      · obtain ⟨k, hk, rfl, hg, -⟩ := hpar u pkt hu
        refine ⟨by omega, ?_, hg⟩
        rw [Nat.add_assoc]
        exact block_div (by omega)
    · rcases List.mem_cons.mp hu with he | hu
      · cases he
        omega
      · obtain ⟨k, hk, rfl, -, hc⟩ := hpar u pkt hu
        have hmod : (g * (d + p) + d + k) % (d + p) - d = k := by
          rw [Nat.add_assoc, block_mod (by omega)]
          omega
        rw [hmod, hm]
        exact hc

theorem Sender.scribble (h : Sender d p off parity s) {ps : List Slice} (hs : s.next lib off (.scribble ps) = some s') :
    Sender d p off parity s' := by
  unfold FecLink.next at hs
  dsimp only at hs
  split at hs
  case isFalse => cases hs
  rename_i hps
  cases hs
  rw [h.collects.par] at hps
  exact { h with collects := h.collects.scribble hps.1 hps.2 }

/-! ## The other steps -/

theorem next_send {now : Int} {rto : UInt32} (hs : s.next lib off (.send b now rto) = some s') :
    s'.dec = s.dec ∧ s'.arrived = s.arrived ∧ ∃ new, s'.sent = s.sent ++ new := by
  unfold FecLink.next at hs
  dsimp only at hs
  split at hs
  case isFalse => cases hs
  split at hs
  · cases hs
    exact ⟨rfl, rfl, _, rfl⟩
  · cases hs

theorem next_scribble {ps : List Slice} (hs : s.next lib off (.scribble ps) = some s') :
    s'.dec = s.dec ∧ s'.arrived = s.arrived ∧ s'.sent = s.sent := by
  unfold FecLink.next at hs
  dsimp only at hs
  split at hs
  · cases hs
    exact ⟨rfl, rfl, rfl⟩
  · cases hs

theorem next_deliver {u : Nat} (hs : s.next lib off (.deliver u pkt) = some s') :
    (u, pkt) ∈ s.sent ∧ ∃ dec r, s.dec.decode lib pkt = .ok (dec, r) ∧
      s' = { s with dec := dec, arrived := u :: s.arrived } := by
  unfold FecLink.next at hs
  dsimp only at hs
  split at hs
  case isFalse => cases hs
  rename_i hu
  split at hs
  · rename_i dec r hd
    cases hs
    exact ⟨hu, dec, r, hd, rfl⟩
  · cases hs

end

end KcpGo.L3.Fec
