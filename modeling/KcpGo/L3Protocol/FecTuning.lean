import KcpGo.L2Machine.FecTune
import KcpGo.L3Protocol.FecDelivery

/-!
# Auto-tuning over whole runs

An encoder with counts `d`, `p` and a decoder that was made with other counts,
over a channel that drops, repeats and reorders, while ids are below 2^31.

* `autotune_converges`: the decoder's counts are its own first ones or the
  encoder's; the encoder's stay; and twice the shard size of packets with
  consecutive ids set them.
-/
namespace KcpGo.L3.Fec

open KcpGo.L1 KcpGo.L2 KcpGo.Serial FecDecoder

/-- Encoder and decoder with counts of their own; ids delivered are below 2^31. -/
def tuningLink (lib : Lib) (d p d' p' off : Nat) : LTS FecLink LinkEv :=
  (LTS.ofFn (fun s => newFECEncoder lib.newCodec d p off = some s.enc ∧ newFECDecoder lib d' p' = some s.dec ∧
    s.shards = [] ∧ s.sent = [] ∧ s.arrived = []) (FecLink.next lib off)).restrict
    fun _ l _ => ∀ u pkt, l = .deliver u pkt → u < 2 ^ 31

/-- The ids a run delivers, in order. -/
def deliveries (ls : List LinkEv) : List Nat :=
  ls.filterMap fun
    | .deliver u _ => some u
    | _ => none

section
variable {lib : Lib} {d p d' p' off : Nat} {parity : List Bytes → List Bytes} {s s' : FecLink}

/-- A packet below 2^31 carries its id unwrapped. -/
theorem Genuine.inStream {shards : List Bytes} {u : Nat} {pkt : Bytes} (h : Genuine d p shards u pkt) (hd : 0 < d)
    (hle : d + p ≤ 256) (hu : u < 2 ^ 31) : InStream d p u pkt := by
  refine ⟨?_, hu, h.type, h.lower, h.upper⟩
  have h1 := Nat.div_add_mod' (2 ^ 32 - 1) (d + p)
  have h2 := Nat.mod_lt (2 ^ 32 - 1) (show 0 < d + p by omega)
  rw [h.id, pawsOf_toNat hle]
  exact Nat.mod_eq_of_lt (by omega)

/-- Both sides along a run. -/
structure TuneInv (lib : Lib) (d p d' p' off : Nat) (parity : List Bytes → List Bytes) (s : FecLink) : Prop where
  sender : Sender d p off parity s
  pos : 0 < p
  le : d + p ≤ 256
  stream : OnStream lib d p s.dec
  counts : Settled d' p' s.dec ∨ Settled d p s.dec

theorem TuneInv.init (hc : ∀ c, lib.newCodec d p = some c → c.MDS d p parity) (hle : d + p ≤ 256)
    (hi : (tuningLink lib d p d' p' off).init s) : TuneInv lib d p d' p' off parity s := by
  obtain ⟨henc, hdec, hsh, hsent, -⟩ := hi
  obtain ⟨hinv, hd, hp, -, -, hauto, -⟩ := newFECDecoder_inv hdec
  refine ⟨Sender.start hc hle henc hsh hsent, ?_, hle, ⟨hinv, ?_⟩, .inl ⟨hd, hp⟩⟩
  · unfold newFECEncoder at henc
    split at henc
    · cases henc
    · omega
  · rw [hauto]
    exact fun x hx => absurd hx List.not_mem_nil

/-- The deliveries of a run are calls with packets of the stream. -/
theorem TuneInv.run (hm : lib.Makes) (hs : AutoTune.Sorts lib.sort) {ls : List LinkEv}
    (hrun : (tuningLink lib d p d' p' off).Run s ls s') (h : TuneInv lib d p d' p' off parity s) :
    Fed lib d p s.dec (deliveries ls) s'.dec ∧ TuneInv lib d p d' p' off parity s' := by
  induction hrun with
  | nil => exact ⟨.nil _, h⟩
  | @cons s s₁ s' l ls hstep _ ih =>
    obtain ⟨hnext, hlow⟩ := hstep
    cases l with
    | send b now rto =>
      obtain ⟨hdec, -, -⟩ := next_send hnext
      rw [← hdec]
      exact ih ⟨h.sender.send hnext, h.pos, h.le, hdec ▸ h.stream, hdec ▸ h.counts⟩
    | scribble ps =>
      obtain ⟨hdec, -, -⟩ := next_scribble hnext
      rw [← hdec]
      exact ih ⟨h.sender.scribble hnext, h.pos, h.le, hdec ▸ h.stream, hdec ▸ h.counts⟩
    | deliver u pkt =>
      obtain ⟨hu, dec, r, hd, rfl⟩ := next_deliver hnext
      have hpos := h.sender.collects.pos
      have hpkt := (h.sender.genuine u pkt hu).inStream hpos h.le (hlow u pkt rfl)
      have hon := h.stream.decode hm hpkt hd
      have hcounts : Settled d' p' dec ∨ Settled d p dec := by
        rcases decode_tunes hpos h.pos h.le hs h.stream.toInv h.stream.samples hpkt hd with hset | ⟨h1, h2, -⟩
        · exact .inr hset
        · rcases h.counts with hc | hc
          · exact .inl ⟨h1.trans hc.1, h2.trans hc.2⟩
          · exact .inr ⟨h1.trans hc.1, h2.trans hc.2⟩
      obtain ⟨hfed, hinv⟩ := ih ⟨⟨h.sender.collects, h.sender.sized, h.sender.old, h.sender.genuine, h.sender.coded⟩,
        h.pos, h.le, hon, hcounts⟩
      exact ⟨.cons hpkt hd hfed, hinv⟩

end

/-- **Auto-tuning.** In every run of an encoder with counts `d`, `p` and a
decoder made with `d'`, `p'`, no call panics and the decoder's counts are one
of these pairs. From then on the encoder's pair stays, and calls with
`2 * (d + p)` packets of consecutive ids, one after the other, leave the
encoder's pair, with everything computed from it. -/
theorem autotune_converges (lib : Lib) (hm : lib.Makes) (ht : lib.Total) (hs : AutoTune.Sorts lib.sort)
    (d p d' p' off : Nat) (hle : d + p ≤ 256) (parity : List Bytes → List Bytes)
    (hc : ∀ c, lib.newCodec d p = some c → c.MDS d p parity) (s : FecLink)
    (hr : (tuningLink lib d p d' p' off).Reachable s) :
    (Settled d' p' s.dec ∨ Settled d p s.dec) ∧
    (∀ u pkt, (u, pkt) ∈ s.sent → u < 2 ^ 31 → ∃ r, s.dec.decode lib pkt = .ok r) ∧
    ∀ ls s', (tuningLink lib d p d' p' off).Run s ls s' → (Settled d p s.dec → Settled d p s'.dec) ∧
      ∀ a, deliveries ls = List.range' a (2 * (d + p)) → Settled d p s'.dec ∧ s'.dec.Shape lib := by
  obtain ⟨s₀, ls₀, hi, hrun₀⟩ := hr
  have h := (TuneInv.run hm hs hrun₀ (TuneInv.init hc hle hi)).2
  have hpos := h.sender.collects.pos
  refine ⟨h.counts, fun u pkt hu hlow => ?_, fun ls s' hrun => ?_⟩
  · have hg := h.sender.genuine u pkt hu
    exact decode_ok h.stream.toInv ht hg.lower hg.upper
  · obtain ⟨hfed, h'⟩ := h.run hm hs hrun
    refine ⟨fun hset => hfed.settled hpos h.pos hle hm hs h.stream hset, fun a hdel => ?_⟩
    rw [hdel] at hfed
    exact ⟨consecutive_tunes hpos h.pos hle hm hs hfed h.stream, h'.stream.toShape⟩

/-! ## A run -/

theorem xors_total : xors.Total := by
  intro d p c hc n got hlen _ _
  cases hc
  show ∃ r, Codec.xorPair.reconstructData got = .ok r ∧ _
  match got, hlen with
  | [], _ => exact ⟨none, rfl, fun out h => by cases h⟩
  | [_], _ => exact ⟨none, rfl, fun out h => by cases h⟩
  | [_, _], _ => exact ⟨none, rfl, fun out h => by cases h⟩
  | [a, b, c], hlen =>
    simp only [Codec.xorPair]
    split
    · exact ⟨_, rfl, fun out h => by cases h; exact hlen⟩
    · split <;> exact ⟨_, rfl, fun out h => by cases h; exact hlen⟩
  | _ :: _ :: _ :: _ :: _, _ => exact ⟨none, rfl, fun out h => by cases h⟩

/-- Two groups of two packets and one parity packet, for a decoder of one and one. -/
def tuningRun : Option (FecLink × FecLink) := do
  let enc ← newFECEncoder xors.newCodec 2 1 0
  let dec ← newFECDecoder xors 1 1
  let s ← LTS.play (FecLink.next xors 0) (fun _ l => match l with | .deliver u _ => decide (u < 2 ^ 31) | _ => true)
    ⟨enc, dec, [], [], []⟩ (List.replicate 4 (.send [0, 0, 0, 0, 0, 0, 0, 0, 5] 0 1))
  let s' ← LTS.play (FecLink.next xors 0) (fun _ l => match l with | .deliver u _ => decide (u < 2 ^ 31) | _ => true)
    s (s.sent.map fun x => .deliver x.1 x.2)
  some (s, s')

theorem autotune_converges_pair : ∃ s s', (tuningLink xors 2 1 1 1 0).Reachable s ∧ Settled 1 1 s.dec ∧
    (tuningLink xors 2 1 1 1 0).Run s (s.sent.map fun x => .deliver x.1 x.2) s' ∧ Settled 2 1 s'.dec := by
  have hplay : tuningRun.any (fun x => decide (x.1.dec.dataShards = 1 ∧ x.1.dec.parityShards = 1 ∧
      deliveries (x.1.sent.map fun x => .deliver x.1 x.2) = List.range' 0 (2 * (2 + 1)))) = true := by decide +kernel
  obtain ⟨⟨s, s'⟩, hrun, hp⟩ := (Option.any_eq_true _ _).mp hplay
  obtain ⟨h1, h2, hdel⟩ := of_decide_eq_true hp
  simp only [tuningRun, Option.bind_eq_bind, Option.bind_eq_some_iff, Option.some.injEq, Prod.mk.injEq] at hrun
  obtain ⟨enc, henc, dec, hdec, s, hs, s', hs', rfl, rfl⟩ := hrun
  have hstep : ∀ s l s', (match l with | LinkEv.deliver u _ => decide (u < 2 ^ 31) | _ => true) = true →
      FecLink.next xors 0 s l = some s' → (tuningLink xors 2 1 1 1 0).step s l s' := by
    intro s l s' hg hn
    refine ⟨hn, ?_⟩
    rintro u pkt rfl
    exact of_decide_eq_true hg
  have hr : (tuningLink xors 2 1 1 1 0).Reachable s :=
    ⟨_, _, ⟨henc, hdec, rfl, rfl, rfl⟩, LTS.play_run (M := tuningLink xors 2 1 1 1 0) hstep hs⟩
  have hr' := LTS.play_run (M := tuningLink xors 2 1 1 1 0) hstep hs'
  have := (autotune_converges xors (fun _ _ _ _ _ => ⟨_, rfl⟩) xors_total AutoTune.sorts_insertionSort 2 1 1 1 0
    (by decide)
    Codec.xorParity (fun c => xors_mds) s hr).2.2 _ s' hr'
  exact ⟨s, s', hr, ⟨h1, h2⟩, hr', (this.2 0 hdel).1⟩

end KcpGo.L3.Fec
