import KcpGo.L3Protocol.FecChannel

/-!
# Recovery over whole runs

A packet is in reach when it is delivered within 2^30 ids of being made and
is not almost 2^31 ids ahead of the newest id delivered before.

* `recovery_sound`: what `decode` returns are payloads of the group decoded.
* `recovery_complete`: the packet that brings a group to as many as it has
  data packets brings back the others, unless newer groups came too early.
-/
namespace KcpGo.L3.Fec

open KcpGo.L1 KcpGo.L2 KcpGo.Serial

/-- Id `u` may be delivered now. -/
def FecLink.InReach (s : FecLink) (u : Nat) : Prop :=
  s.issued ≤ u + 2 ^ 30 ∧ u + 5 * s.enc.shardSize ≤ s.newest + 2 ^ 31

instance (s : FecLink) (u : Nat) : Decidable (s.InReach u) := inferInstanceAs (Decidable (_ ∧ _))

/-- The runs in which every delivery is in reach. -/
def nearLink (lib : Lib) (d p off : Nat) : LTS FecLink LinkEv :=
  (fecLink lib d p off).restrict fun s l _ => ∀ u pkt, l = .deliver u pkt → s.InReach u

/-- Both sides along such a run. -/
structure LinkInv (lib : Lib) (d p off : Nat) (parity : List Bytes → List Bytes) (e : Epoch) (s : FecLink) : Prop where
  sender : Sender d p off parity s
  inv : s.dec.Inv lib
  par : s.dec.parityShards = p
  keeps : Keeps e d s.sent s.arrived (s.newest / e.size) s.dec
  known : ∀ v ∈ s.arrived, ∃ pkt, (v, pkt) ∈ s.sent

section
variable {lib : Lib} {d p off : Nat} {parity : List Bytes → List Bytes} {e : Epoch} {s s' : FecLink}

theorem newest_cons (u : Nat) (l : List Nat) :
    (u :: l).foldr max 0 / e.size = max (l.foldr max 0 / e.size) (u / e.size) := by
  rw [List.foldr_cons]
  rcases Nat.le_total u (l.foldr max 0) with h | h
  · rw [Nat.max_eq_right h, Nat.max_eq_left (Nat.div_le_div_right h)]
  · rw [Nat.max_eq_left h, Nat.max_eq_right (Nat.div_le_div_right h)]

theorem newest_le {l : List Nat} {m : Nat} (h : ∀ v ∈ l, v ≤ m) : l.foldr max 0 ≤ m := by
  induction l with
  | nil => exact Nat.zero_le _
  | cons v l ih =>
    exact Nat.max_le.mpr ⟨h v List.mem_cons_self, ih fun w hw => h w (List.mem_cons_of_mem _ hw)⟩

theorem LinkInv.near (h : LinkInv lib d p off parity e s) (he : e.size = d + p) {u : Nat} (hu : s.InReach u) :
    Near e (s.newest / e.size) (u / e.size) := by
  have hold : s.newest ≤ s.issued := by
    refine newest_le fun v hv => ?_
    obtain ⟨pkt, hp⟩ := h.known v hv
    exact Nat.le_of_lt (h.sender.old v pkt hp)
  obtain ⟨h1, h2⟩ := hu
  rw [h.sender.collects.size, ← he] at h2
  exact near_of_ids h.keeps.laid.small h2 (by omega)

/-- More packets made. -/
theorem Keeps.sends {n : Nat} {dec : FecDecoder} {sent : List (Nat × Bytes)} {arrived : List Nat}
    (h : Keeps e d sent arrived n dec) (new : List (Nat × Bytes)) : Keeps e d (sent ++ new) arrived n dec where
  laid := h.laid
  data := h.data
  calm := h.calm
  newest := h.newest
  upto := h.upto
  sets id x hx := by
    obtain ⟨g, hg, hgn, hga, hgk, hpk⟩ := h.sets id x hx
    refine ⟨g, hg, hgn, hga, hgk, fun q hq => ?_⟩
    obtain ⟨v, hv, hvs, hvg⟩ := hpk q hq
    exact ⟨v, hv, List.mem_append_left _ hvs, hvg⟩
  whole g hg hlt v hv hvg := by
    obtain ⟨id, x, q, hid, hx, hq, hqs⟩ := h.whole g hg hlt v hv hvg
    exact ⟨id, x, q, hid, hx, hq, List.mem_append_left _ hqs⟩

variable (he : e.size = d + p) (hp : (pawsOf (d + p)).toNat = e.count * e.size)
  (hc : ∀ c, lib.newCodec d p = some c → c.MDS d p parity)

include hc in
theorem LinkInv.init (he : e.size = d + p) (hp : (pawsOf (d + p)).toNat = e.count * e.size)
    (hi : (fecLink lib d p off).init s) : LinkInv lib d p off parity e s := by
  have hsender := Sender.init hc hi
  obtain ⟨-, hdec, -, hsent, harr⟩ := hi
  obtain ⟨hinv, hd, hpar, hset, hnew, -, hcalm⟩ := FecDecoder.newFECDecoder_inv hdec
  have hsize : s.dec.shardSize = e.size := by rw [hinv.size, hd, hpar, he]
  have hn : s.newest / e.size = 0 := by
    rw [FecLink.newest, harr]
    exact Nat.zero_div _
  refine ⟨hsender, hinv, hpar, ⟨⟨hsize, ?_, hsize ▸ hinv.le⟩, hd, hcalm, ?_, ?_, ?_, ?_⟩, ?_⟩
  · rw [hinv.paws, hsize, he, hp, he]
  · rw [hnew, hn, Nat.zero_mod]
    rfl
  · rw [harr]
    exact fun v hv => absurd hv List.not_mem_nil
  · intro id x hx
    rw [hset] at hx
    cases hx
  · rw [harr]
    exact fun g _ _ v hv => absurd hv List.not_mem_nil
  · rw [harr]
    exact fun v hv => absurd hv List.not_mem_nil

include he hp in
theorem LinkInv.step (h : LinkInv lib d p off parity e s) {l : LinkEv} (hs : (nearLink lib d p off).step s l s') :
    LinkInv lib d p off parity e s' := by
  obtain ⟨hstep, hreach⟩ := hs
  cases l with
  | send b now rto =>
    obtain ⟨hdec, harr, new, hsent⟩ := next_send hstep
    refine ⟨h.sender.send hstep, hdec ▸ h.inv, hdec ▸ h.par, ?_, ?_⟩
    · rw [FecLink.newest, hdec, harr, hsent]
      exact h.keeps.sends new
    · intro v hv
      rw [harr] at hv
      obtain ⟨pkt, hpkt⟩ := h.known v hv
      exact ⟨pkt, by rw [hsent]; exact List.mem_append_left _ hpkt⟩
  | scribble ps =>
    obtain ⟨hdec, harr, hsent⟩ := next_scribble hstep
    refine ⟨h.sender.scribble hstep, hdec ▸ h.inv, hdec ▸ h.par, ?_, ?_⟩
    · rw [FecLink.newest, hdec, harr, hsent]
      exact h.keeps
    · rw [harr, hsent]
      exact h.known
  | deliver u pkt =>
    obtain ⟨hu, dec, r, hd, rfl⟩ := next_deliver hstep
    obtain ⟨hinv, hpar, hk, -⟩ := h.keeps.decode he hp h.sender.genuine h.inv hu (h.near he (hreach u pkt rfl)) hd
    refine ⟨⟨h.sender.collects, h.sender.sized, h.sender.old, h.sender.genuine, h.sender.coded⟩, hinv,
      hpar.trans h.par, ?_, ?_⟩
    · show Keeps e d s.sent (u :: s.arrived) ((u :: s.arrived).foldr max 0 / e.size) dec
      rw [newest_cons]
      exact hk
    · intro v hv
      rcases List.mem_cons.mp hv with rfl | hv
      · exact ⟨pkt, hu⟩
      · exact h.known v hv

include he hc in
/-- Nothing panics, and what comes back is described by the set. -/
theorem LinkInv.decode (h : LinkInv lib d p off parity e s) (hp : (pawsOf (d + p)).toNat = e.count * e.size) {u : Nat}
    {pkt : Bytes} (hu : (u, pkt) ∈ s.sent) (hreach : s.InReach u) : ∃ dec' r, s.dec.decode lib pkt = .ok (dec', r) ∧
    ((r = [] ∧ (u ∈ s.arrived ∨ (s.dec.pushed pkt).elements.length < d)) ∨
      (FecDecoder.Full s.dec (s.dec.getShardId (seqid pkt)) (s.dec.pushed pkt).elements ∧
        (group d s.shards (u / (d + p))).length = d ∧
        r.map cut = (s.dec.absent (s.dec.pushed pkt).elements).map fun i =>
          some ((group d s.shards (u / (d + p))).getD i []))) := by
  have hg := h.sender.genuine
  have hnear := h.near he hreach
  have hmds : s.dec.codec.MDS d p parity := by
    refine hc _ ?_
    have := h.inv.codec
    rwa [h.keeps.data, h.par] at this
  have hcode := h.sender.coded (u / (d + p))
  have hfrom := (h.keeps.pushed hp hg hu hnear).1
  rw [he] at hfrom
  have hgen := hg u pkt hu
  -- the set, once it is full
  have hrec : FecDecoder.Full s.dec (s.dec.getShardId (seqid pkt)) (s.dec.pushed pkt).elements →
      (s.dec.pushed pkt).elements.length = d → (group d s.shards (u / (d + p))).length = d ∧
      ∃ r, s.dec.recover (s.dec.pushed pkt).elements = .ok r ∧ r.map cut =
        (s.dec.absent (s.dec.pushed pkt).elements).map fun i => some ((group d s.shards (u / (d + p))).getD i []) := by
    intro hl hlen
    have hfrom' : ∀ q ∈ (s.dec.pushed pkt).elements, FromGroup e.size s.sent (u :: s.arrived) (u / (d + p)) q := by
      rw [he]
      exact hfrom
    exact ⟨h.keeps.group_full he hp hg h.inv hcode hl hlen hfrom',
      h.keeps.recovers he hp hg h.inv h.par (fun x hx => (h.sender.sized x hx).1) hmds hcode hl hlen hfrom'⟩
  obtain ⟨⟨dec', r⟩, hd⟩ := FecDecoder.decode_returns h.inv hgen.lower hgen.upper fun hl hle => by
    have hge := hl.enough
    rw [h.keeps.data] at hle hge
    obtain ⟨-, r, hr, -⟩ := hrec hl (by omega)
    exact ⟨r, hr⟩
  refine ⟨dec', r, hd, ?_⟩
  obtain ⟨-, -, -, hnone | ⟨hlen, hl, hr⟩⟩ := h.keeps.decode he hp hg h.inv hu hnear hd
  · exact .inl hnone
  · obtain ⟨hgl, r', hr', hcut⟩ := hrec hl hlen
    obtain rfl : r = r' := Except.ok.inj (hr.symm.trans hr')
    exact .inr ⟨hl, hgl, hcut⟩

/-- The epoch of a decoder that was made. -/
theorem exists_epoch {dec : FecDecoder} (h : newFECDecoder lib d p = some dec) :
    ∃ e : Epoch, e.size = d + p ∧ (pawsOf (d + p)).toNat = e.count * e.size := by
  obtain ⟨hinv, hd, hpar, -⟩ := FecDecoder.newFECDecoder_inv h
  have h1 := hinv.size
  have h2 := hinv.le
  have h3 := hinv.data
  exact ⟨epoch (d + p) (by omega) (by omega), rfl, pawsOf_toNat (by omega)⟩

include hc in
theorem LinkInv.reachable (hr : (nearLink lib d p off).Reachable s) : ∃ e : Epoch, e.size = d + p ∧
    (pawsOf (d + p)).toNat = e.count * e.size ∧ LinkInv lib d p off parity e s := by
  obtain ⟨s₀, ls, hi, hrun⟩ := hr
  obtain ⟨e, he, hp⟩ := exists_epoch hi.2.1
  exact ⟨e, he, hp, hrun.keeps (fun _ _ _ h hs => h.step he hp hs) (LinkInv.init hc he hp hi)⟩

end

/-- **Sound recovery.** In every run of an encoder and a decoder of the same
counts whose deliveries are in reach, encoding any packet and decoding any
packet in reach return, and every shard that comes back is, cut to its size
field, a size-prefixed payload of the group decoded. -/
theorem recovery_sound (lib : Lib) (d p off : Nat) (parity : List Bytes → List Bytes)
    (hc : ∀ c, lib.newCodec d p = some c → c.MDS d p parity) (s : FecLink) (hr : (nearLink lib d p off).Reachable s) :
    (∀ b now rto, off + 8 ≤ b.length → b.length ≤ maxPacketSize → ∃ r, s.enc.encode b now rto = .ok r) ∧
    ∀ u pkt, (u, pkt) ∈ s.sent → s.InReach u → ∃ dec' r, s.dec.decode lib pkt = .ok (dec', r) ∧
      ∀ sh ∈ r, ∃ x ∈ group d s.shards (u / (d + p)), cut sh = some x := by
  obtain ⟨e, he, hp, h⟩ := LinkInv.reachable hc hr
  constructor
  · intro b now rto hb hb'
    obtain ⟨enc', ps, henc, -⟩ := h.sender.encode hb hb' now rto
    exact ⟨_, henc⟩
  · intro u pkt hu hreach
    obtain ⟨dec', r, hd, hres⟩ := h.decode he hc hp hu hreach
    refine ⟨dec', r, hd, fun sh hsh => ?_⟩
    rcases hres with ⟨rfl, -⟩ | ⟨-, hgl, hcut⟩
    · cases hsh
    · have hmem : cut sh ∈ r.map cut := List.mem_map_of_mem hsh
      rw [hcut] at hmem
      obtain ⟨i, hi, hx⟩ := List.mem_map.mp hmem
      have hlt : i < (group d s.shards (u / (d + p))).length := by
        rw [hgl, ← h.keeps.data]
        exact List.mem_range.mp (List.mem_of_mem_filter hi)
      refine ⟨_, List.getElem_mem hlt, ?_⟩
      rw [← hx, List.getD_eq_getElem?_getD, List.getElem?_eq_getElem hlt, Option.getD_some]

/-! ## A run -/

/-- Events one after the other, as long as every delivery is in reach. -/
def playNear (ls : List LinkEv) : Option FecLink := do
  let enc ← newFECEncoder xors.newCodec 2 1 0
  let dec ← newFECDecoder xors 2 1
  LTS.play (FecLink.next xors 0) (fun s l => match l with | .deliver u _ => decide (s.InReach u) | _ => true)
    ⟨enc, dec, [], [], []⟩ ls

theorem playNear_reachable {ls : List LinkEv} {s : FecLink} (h : playNear ls = some s) :
    (nearLink xors 2 1 0).Reachable s := by
  simp only [playNear, Option.bind_eq_bind, Option.bind_eq_some_iff] at h
  obtain ⟨enc, henc, dec, hdec, hplay⟩ := h
  refine ⟨_, _, ⟨henc, hdec, rfl, rfl, rfl⟩, LTS.play_run (M := nearLink xors 2 1 0)
    (fun s l s' hg hs => ⟨hs, ?_⟩) hplay⟩
  rintro u pkt rfl
  exact of_decide_eq_true hg

/-- Two packets and their exclusive or are made, and the first is delivered. -/
def pairLink : Option FecLink :=
  playNear [.send [0, 0, 0, 0, 0, 0, 0, 0, 5] 0 1, .send [0, 0, 0, 0, 0, 0, 0, 0, 6, 7] 0 1,
    .deliver 0 [0, 0, 0, 0, 241, 0, 3, 0, 5]]

theorem xors_mds {c : Codec} (h : xors.newCodec 2 1 = some c) : c.MDS 2 1 Codec.xorParity := by
  cases h
  exact Codec.xorPair_mds

theorem pairLink_some : ∃ s, pairLink = some s ∧ s.arrived = [0] ∧ s.shards = [[3, 0, 5], [4, 0, 6, 7]] ∧
    (2, [2, 0, 0, 0, 242, 0, 7, 0, 3, 7]) ∈ s.sent ∧ s.InReach 2 := by
  have h : pairLink.any (fun s => decide (s.arrived = [0] ∧ s.shards = [[3, 0, 5], [4, 0, 6, 7]] ∧
      (2, [2, 0, 0, 0, 242, 0, 7, 0, 3, 7]) ∈ s.sent ∧ s.InReach 2)) = true := by decide +kernel
  obtain ⟨s, hs, hp⟩ := (Option.any_eq_true _ _).mp h
  exact ⟨s, hs, of_decide_eq_true hp⟩

theorem recovery_sound_pair : ∃ s dec' r, (nearLink xors 2 1 0).Reachable s ∧
    s.dec.decode xors [2, 0, 0, 0, 242, 0, 7, 0, 3, 7] = .ok (dec', r) ∧
    ∀ sh ∈ r, ∃ x ∈ group 2 s.shards 0, cut sh = some x := by
  obtain ⟨s, hs, -, -, hsent, hreach⟩ := pairLink_some
  have hr := playNear_reachable hs
  obtain ⟨dec', r, hd, hcut⟩ := (recovery_sound xors 2 1 0 Codec.xorParity (fun c => xors_mds) s hr).2 2 _ hsent hreach
  exact ⟨s, dec', r, hr, hd, hcut⟩

section
variable {lib : Lib} {d p off : Nat} {parity : List Bytes → List Bytes} {e : Epoch} {s : FecLink}

theorem distinct_cons_new {z u : Nat} {l : List Nat} (h : u ∉ l) :
    distinct z (u :: l) (u / z) = distinct z l (u / z) + 1 := by
  have hnot : u ∉ (l.filter fun v => v / z = u / z).toFinset := by simp [h]
  rw [distinct, List.filter_cons_of_pos (by simp), List.toFinset_cons, Finset.card_insert_of_notMem hnot]
  rfl

/-- No newer group than two behind the packet's came yet. -/
theorem newest_group {l : List Nat} {z g : Nat} (hz : 0 < z) (h : ∀ v ∈ l, v / z ≤ g) : l.foldr max 0 / z ≤ g := by
  have hle : l.foldr max 0 ≤ g * z + (z - 1) := by
    refine newest_le fun v hv => ?_
    have h1 := Nat.div_add_mod' v z
    have h2 := Nat.mod_lt v hz
    have h3 := Nat.mul_le_mul_right z (h v hv)
    omega
  refine Nat.le_of_lt_succ ((Nat.div_lt_iff_lt_mul hz).mpr ?_)
  rw [Nat.succ_mul]
  omega

/-- The data shards absent from a set with every packet that arrived are those that did not arrive. -/
theorem absent_eq (h : LinkInv lib d p off parity e s) (he : e.size = d + p)
    (hp : (pawsOf (d + p)).toNat = e.count * e.size) {g : Nat} {arr : List Nat} {l : List Bytes}
    (hfrom : ∀ q ∈ l, FromGroup e.size s.sent arr g q) (hall : ∀ v ∈ arr, v / e.size = g → ∃ q ∈ l, (v, q) ∈ s.sent) :
    s.dec.absent l = (List.range d).filter fun i => g * (d + p) + i ∉ arr := by
  have hg := h.sender.genuine
  rw [FecDecoder.absent, h.keeps.data]
  refine List.filter_congr fun i hi => ?_
  have hid : i < d + p := Nat.lt_of_lt_of_le (List.mem_range.mp hi) (Nat.le_add_right _ _)
  refine decide_eq_decide.mpr ⟨fun hno hmem => ?_, fun hno q hq hpos => ?_⟩
  · obtain ⟨q, hq, hqs⟩ := hall _ hmem (by rw [he]; exact block_div hid)
    refine hno q hq ?_
    rw [h.keeps.pos he hp hg hqs, block_mod hid]
  · obtain ⟨v, hv, hvs, hvg⟩ := hfrom q hq
    rw [h.keeps.pos he hp hg hvs] at hpos
    refine hno ?_
    rw [← hvg, he, ← hpos, Nat.div_add_mod']
    exact hv

end

/-- **Complete recovery.** In every run whose deliveries are in reach, as long
as no packet of a group more than two after `g` has arrived: a packet of `g`
that leaves `g` with fewer different packets than data packets brings back
nothing, and the one that makes them as many brings back exactly the data
packets of `g` that did not arrive, in order. -/
theorem recovery_complete (lib : Lib) (d p off : Nat) (parity : List Bytes → List Bytes)
    (hc : ∀ c, lib.newCodec d p = some c → c.MDS d p parity) (s : FecLink) (hr : (nearLink lib d p off).Reachable s)
    (u g : Nat) (pkt : Bytes) (hu : (u, pkt) ∈ s.sent) (hg : u / (d + p) = g) (hreach : s.InReach u)
    (hnew : ∀ v ∈ s.arrived, v / (d + p) ≤ g + 2) : ∃ dec' r, s.dec.decode lib pkt = .ok (dec', r) ∧
    (distinct (d + p) (u :: s.arrived) g < d → r = []) ∧
    (u ∉ s.arrived → distinct (d + p) (u :: s.arrived) g = d → (group d s.shards g).length = d ∧
      r.map cut = ((List.range d).filter fun i => g * (d + p) + i ∉ u :: s.arrived).map fun i =>
        some ((group d s.shards g).getD i [])) := by
  obtain ⟨e, he, hp, h⟩ := LinkInv.reachable hc hr
  subst hg
  have hgen := h.sender.genuine
  obtain ⟨hfrom, hwhole⟩ := h.keeps.pushed hp hgen hu (h.near he hreach)
  obtain ⟨dec', r, hd, hres⟩ := h.decode he hc hp hu hreach
  have hn : s.newest / e.size ≤ u / e.size + 2 := by
    refine newest_group e.size_pos fun v hv => ?_
    rw [he]
    exact hnew v hv
  rw [he] at hn hwhole
  refine ⟨dec', r, hd, fun hlt => ?_, fun hfresh hd' => ?_⟩
  · rcases hres with ⟨rfl, -⟩ | ⟨hl, -, -⟩
    · rfl
    · have h1 := length_le_distinct hp hgen hl.nodup hfrom
      have h2 := hl.enough
      rw [he] at h1
      rw [h.keeps.data] at h2
      omega
  · have hold : distinct (d + p) s.arrived (u / (d + p)) < d := by
      rw [distinct_cons_new hfresh] at hd'
      omega
    have hall := hwhole hn hold
    rcases hres with ⟨rfl, hmem | hlen⟩ | ⟨-, hgl, hcut⟩
    · exact absurd hmem hfresh
    · have := distinct_le_length hp hgen (g := u / (d + p)) (show ∀ v ∈ u :: s.arrived, _ from by rw [he]; exact hall)
      rw [he] at this
      omega
    · refine ⟨hgl, ?_⟩
      rw [hcut, @absent_eq _ _ _ _ _ _ _ h he hp (u / (d + p)) (u :: s.arrived) _ (by rw [he] at hfrom ⊢; exact hfrom)
        (by rw [he]; exact hall)]

theorem recovery_complete_pair : ∃ s dec' r, (nearLink xors 2 1 0).Reachable s ∧
    s.dec.decode xors [2, 0, 0, 0, 242, 0, 7, 0, 3, 7] = .ok (dec', r) ∧ r.map cut = [some [4, 0, 6, 7]] := by
  obtain ⟨s, hs, harr, hsh, hsent, hreach⟩ := pairLink_some
  have hr := playNear_reachable hs
  obtain ⟨dec', r, hd, -, hlast⟩ :=
    recovery_complete xors 2 1 0 Codec.xorParity (fun c => xors_mds) s hr 2 0 _ hsent rfl
    hreach (by rw [harr]; decide)
  have hcut := (hlast (by rw [harr]; decide) (by rw [harr]; decide)).2
  rw [harr, hsh] at hcut
  exact ⟨s, dec', r, hr, hd, hcut⟩

end KcpGo.L3.Fec
