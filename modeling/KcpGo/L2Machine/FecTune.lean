import KcpGo.Core.Epoch
import KcpGo.L2Machine.FecDecoderSpec

/-!
# Auto-tuning on one stream

Packets of an encoder with counts `d` and `p` carry ids below 2^31 and the
type of their position. Samples of such packets have complete pulses of width
`d` and `p` only (`pulse_width`), so tuning can only set these counts.
`shardSize + 2` consecutive ids that begin just before an edge show both
pulses (`pulses_of_pattern`); if the counts differ, some of them does not have
the type the decoder expects, so tuning is on when the last one arrives
(`pattern_tunes`).
-/
namespace KcpGo.L2

open KcpGo.L1 KcpGo.Serial

/-- A packet with id `u` of a stream with counts `d` and `p`. -/
structure InStream (d p u : Nat) (pkt : Bytes) : Prop where
  id : (seqid pkt).toNat = u
  low : u < 2 ^ 31
  type : flag pkt = if u % (d + p) < d then typeData else typeParity
  lower : fecHeaderSizePlus2 ≤ pkt.length
  upper : pkt.length ≤ maxPacketSize

namespace AutoTune

/-- What is sampled of it. -/
def pulseAt (d p u : Nat) : Pulse := ⟨decide (u % (d + p) < d), u32 u⟩

/-- All samples are of the stream. -/
def OfStream (d p : Nat) (S : List Pulse) : Prop := ∀ x ∈ S, ∃ u < 2 ^ 31, x = pulseAt d p u

section
variable {d p w : Nat} {S : List Pulse}

/-- The ids of a complete pulse. -/
theorem OfStream.ids (hS : OfStream d p S) (hw : w ≤ 256) {bit : Bool} (h : IsPulse S bit w) :
    ∃ u, decide (u % (d + p) < d) = !bit ∧ (∀ i < w, decide ((u + 1 + i) % (d + p) < d) = bit) ∧
      decide ((u + 1 + w) % (d + p) < d) = !bit := by
  obtain ⟨s, h1, h2, h3⟩ := h
  obtain ⟨u, hu, he⟩ := hS _ h1
  obtain ⟨hb, rfl⟩ := Pulse.mk.inj he
  -- an id after `u` is sampled as itself
  have hid : ∀ (i : Nat) (b : Bool), i ≤ w → (⟨b, u32 u + 1 + u32 i⟩ : Pulse) ∈ S →
      decide ((u + 1 + i) % (d + p) < d) = b := by
    intro i b hi hm
    obtain ⟨v, hv, he⟩ := hS _ hm
    obtain ⟨hb, hs⟩ := Pulse.mk.inj he
    rw [u32_succ, u32_add] at hs
    have : v = u + 1 + i := (u32_inj hs (by omega) (by omega)).symm
    rw [← this]
    exact hb.symm
  exact ⟨u, hb.symm, fun i hi => hid i bit (Nat.le_of_lt hi) (h2 i hi), hid w (!bit) (Nat.le_refl _) h3⟩

/-- Across an edge into the data of a group its first id follows, into the
parity the first parity id. -/
theorem edge {u : Nat} (hd : 0 < d) (hp : 0 < p) {bit : Bool} (h0 : decide (u % (d + p) < d) = !bit)
    (h1 : decide ((u + 1) % (d + p) < d) = bit) : ∃ q, u + 1 = q * (d + p) + if bit then 0 else d := by
  have hr := Nat.mod_lt u (show 0 < d + p by omega)
  have hu := Nat.div_add_mod' u (d + p)
  generalize u % (d + p) = r at h0 hr hu
  generalize u / (d + p) = q at hu
  by_cases hlast : r + 1 < d + p
  · have hmod : (u + 1) % (d + p) = r + 1 := by
      rw [← hu, Nat.add_assoc]
      exact block_mod hlast
    rw [hmod] at h1
    cases bit with
    | true =>
      simp only [Bool.not_true, decide_eq_false_iff_not, decide_eq_true_iff] at h0 h1
      omega
    | false =>
      simp only [Bool.not_false, decide_eq_false_iff_not, decide_eq_true_iff] at h0 h1
      exact ⟨q, by simp only [Bool.false_eq_true, if_false]; omega⟩
  · have hnext : u + 1 = (q + 1) * (d + p) + 0 := by
      rw [Nat.succ_mul]
      omega
    cases bit with
    | true => exact ⟨q + 1, hnext⟩
    | false =>
      rw [hnext, block_mod (by omega)] at h1
      simp only [decide_eq_false_iff_not] at h1
      omega

/-- **The width of a pulse** among samples of the stream. -/
theorem pulse_width (hd : 0 < d) (hp : 0 < p) (hS : OfStream d p S) (h1 : 1 ≤ w) (hw : w ≤ 256) {bit : Bool}
    (h : IsPulse S bit w) : w = if bit then d else p := by
  obtain ⟨u, h0, hin, hout⟩ := hS.ids hw h
  obtain ⟨q, hq⟩ := edge hd hp h0 (hin 0 h1)
  rw [hq] at hin hout
  cases bit with
  | true =>
    simp only [if_true, Bool.not_true, decide_eq_false_iff_not, decide_eq_true_iff, Nat.add_zero] at hin hout ⊢
    rcases Nat.lt_trichotomy w d with hlt | heq | hgt
    · rw [block_mod (by omega)] at hout
      exact absurd hlt hout
    · exact heq
    · have := hin d hgt
      rw [block_mod (by omega)] at this
      omega
  | false =>
    simp only [Bool.false_eq_true, if_false, Bool.not_false, decide_eq_false_iff_not, decide_eq_true_iff] at hin hout ⊢
    rcases Nat.lt_trichotomy w p with hlt | heq | hgt
    · rw [Nat.add_assoc, block_mod (by omega)] at hout
      omega
    · exact heq
    · have := hin p hgt
      have hz : q * (d + p) + d + p = (q + 1) * (d + p) + 0 := by
        rw [Nat.succ_mul]
        omega
      rw [hz, block_mod (by omega)] at this
      omega

theorem isPulse_at (b k : Nat) {bit : Bool} (h0 : ⟨!bit, u32 (b + k)⟩ ∈ S)
    (hin : ∀ i < w, ⟨bit, u32 (b + (k + 1 + i))⟩ ∈ S) (hout : ⟨!bit, u32 (b + (k + 1 + w))⟩ ∈ S) : IsPulse S bit w := by
  have hid : ∀ i, u32 (b + k) + 1 + u32 i = u32 (b + (k + 1 + i)) := by
    intro i
    rw [u32_succ, u32_add, Nat.add_assoc b k 1, Nat.add_assoc b]
  refine ⟨u32 (b + k), h0, fun i hi => ?_, ?_⟩
  · rw [hid]
    exact hin i hi
  · rw [hid]
    exact hout

/-- From just before an edge, one group and one id more show both pulses. -/
theorem pulses_of_pattern (hd : 0 < d) (hp : 0 < p) {b q : Nat}
    (hb : b + 1 = (q + 1) * (d + p) ∨ b + 1 = q * (d + p) + d)
    (hS : ∀ i ≤ d + p + 1, pulseAt d p (b + i) ∈ S) : IsPulse S true d ∧ IsPulse S false p := by
  have hz : (q + 1) * (d + p) = q * (d + p) + (d + p) := Nat.succ_mul _ _
  have hz' : (q + 2) * (d + p) = q * (d + p) + (d + p) + (d + p) := by rw [Nat.add_mul]; omega
  -- a sample by its place in the group
  have hat : ∀ (i q' r : Nat) (bit : Bool), i ≤ d + p + 1 → b + i = q' * (d + p) + r →
    r < d + p → decide (r < d) = bit →
      (⟨bit, u32 (b + i)⟩ : Pulse) ∈ S := by
    intro i q' r bit hi he hr hbit
    have := hS i hi
    rw [pulseAt, he, block_mod hr, hbit, ← he] at this
    exact this
  have hdata : ∀ r, r < d → decide (r < d) = true := fun r hr => decide_eq_true hr
  have hpar : ∀ r, d ≤ r → decide (r < d) = false := fun r hr => decide_eq_false (Nat.not_lt.mpr hr)
  rcases hb with hb | hb
  · refine ⟨isPulse_at b 0 ?_ (fun i hi => ?_) ?_, isPulse_at b d ?_ (fun i hi => ?_) ?_⟩
    · exact hat 0 q (d + p - 1) _ (by omega) (by omega) (by omega) (hpar _ (by omega))
    · exact hat _ (q + 1) i _ (by omega) (by omega) (by omega) (hdata _ hi)
    · exact hat _ (q + 1) d _ (by omega) (by omega) (by omega) (hpar _ (by omega))
    · exact hat _ (q + 1) (d - 1) _ (by omega) (by omega) (by omega) (hdata _ (by omega))
    · exact hat _ (q + 1) (d + i) _ (by omega) (by omega) (by omega) (hpar _ (by omega))
    · exact hat _ (q + 2) 0 _ (by omega) (by omega) (by omega) (hdata _ (by omega))
  · refine ⟨isPulse_at b p ?_ (fun i hi => ?_) ?_, isPulse_at b 0 ?_ (fun i hi => ?_) ?_⟩
    · exact hat _ q (d + p - 1) _ (by omega) (by omega) (by omega) (hpar _ (by omega))
    · exact hat _ (q + 1) i _ (by omega) (by omega) (by omega) (hdata _ hi)
    · exact hat _ (q + 1) d _ (by omega) (by omega) (by omega) (hpar _ (by omega))
    · exact hat 0 q (d - 1) _ (by omega) (by omega) (by omega) (hdata _ (by omega))
    · exact hat _ q (d + i) _ (by omega) (by omega) (by omega) (hpar _ (by omega))
    · exact hat _ (q + 1) 0 _ (by omega) (by omega) (by omega) (hdata _ (by omega))

theorem OfStream.coherent (hS : OfStream d p S) : Coherent S 0 := by
  refine ⟨fun a ha => ?_, fun a ha b hb he => ?_⟩
  · obtain ⟨u, hu, rfl⟩ := hS a ha
    rw [pulseAt, UInt32.sub_zero, toNat_u32]
    omega
  · obtain ⟨u, hu, rfl⟩ := hS a ha
    obtain ⟨v, hv, rfl⟩ := hS b hb
    obtain rfl : u = v := u32_inj he (by omega) (by omega)
    rfl

/-- A width found in the samples of a stream is its own. -/
theorem OfStream.findPeriod (hd : 0 < d) (hp : 0 < p) {sort : List Pulse → List Pulse} (hs : Sorts sort) {t : AutoTune}
    (hS : OfStream d p t.toList) (bit : Bool) :
    t.findPeriod sort bit = -1 ∨ t.findPeriod sort bit = ((if bit then d else p : Nat) : Int) := by
  rcases findPeriod_sound hs.perm t bit with h | ⟨w, hw, h1, h256, hpulse⟩
  · exact .inl h
  · right
    rw [hw, pulse_width hd hp hS h1 h256 hpulse]

end

end AutoTune
namespace FecDecoder

/-- The decoder has the counts of the stream. -/
def Settled (d p : Nat) (dec : FecDecoder) : Prop := dec.dataShards = d ∧ dec.parityShards = p

section
variable {lib : Lib} {dec dec' : FecDecoder} {d p u : Nat} {pkt : Bytes} {r : List Bytes}

/-- Every call samples its packet and nothing else. -/
theorem decode_autoTune (h : dec.decode lib pkt = .ok (dec', r)) :
    dec'.autoTune = dec.autoTune.sample (decide (flag pkt = typeData)) (seqid pkt) := by
  have hins : ∀ dec : FecDecoder, (dec.inserted pkt).autoTune = dec.autoTune := by
    intro dec
    unfold inserted updateNewest
    split <;> rfl
  cases decode_cases h with
  | rejected _ => rfl
  | tuned _ _ =>
    have hc : ((dec.sampled pkt).checked pkt).autoTune = (dec.sampled pkt).autoTune := by
      unfold checked
      split <;> rfl
    rcases tune_cases lib ((dec.sampled pkt).checked pkt) (seqid pkt) with ⟨b, he⟩ | ⟨ds, ps, -, -, -, -, -, he⟩
    · rw [he]
      exact hc
    · rw [he, retune]
      dsimp only
      split <;> exact hc
  | repeated _ _ _ _ => rfl
  | stored _ _ _ _ _ _ => exact hins (dec.sampled pkt)
  | completed _ _ _ _ _ _ _ => exact hins (dec.sampled pkt)

variable (hd : 0 < d) (hp : 0 < p) (hle : d + p ≤ 256)

theorem InStream.pulse (h : InStream d p u pkt) :
    (⟨decide (flag pkt = typeData), seqid pkt⟩ : Pulse) = AutoTune.pulseAt d p u := by
  have hid : seqid pkt = u32 u := by
    have := h.low
    rw [← UInt32.toNat_inj, h.id, toNat_u32]
    omega
  have hbit : decide (flag pkt = typeData) = decide (u % (d + p) < d) := by
    rw [h.type]
    split
    · rename_i hlt
      rw [decide_eq_true hlt]
      rfl
    · rename_i hlt
      rw [decide_eq_false hlt]
      rfl
  rw [AutoTune.pulseAt, hid, hbit]

theorem decode_stream (hS : AutoTune.OfStream d p dec.autoTune.toList) (hpkt : InStream d p u pkt)
    (h : dec.decode lib pkt = .ok (dec', r)) : AutoTune.OfStream d p dec'.autoTune.toList := by
  rw [decode_autoTune h]
  intro x hx
  rcases Ring.mem_push hx with hx | rfl
  · exact hS x hx
  · exact ⟨u, hpkt.low, InStream.pulse hpkt⟩

include hd hp hle in
/-- A tuning attempt on samples of the stream sets its counts, or a pulse is missing. -/
theorem tune_stream (hs : AutoTune.Sorts lib.sort) (hS : AutoTune.OfStream d p dec.autoTune.toList) (id : UInt32) :
    Settled d p (dec.tune lib id) ∨ (dec.tune lib id = dec ∧ ∃ bit, dec.autoTune.findPeriod lib.sort bit = -1) := by
  have hT := hS.findPeriod hd hp hs true
  have hF := hS.findPeriod hd hp hs false
  simp only [if_true, Bool.false_eq_true, if_false] at hT hF
  unfold tune
  dsimp only
  rcases hT with hT | hT
  · exact .inr ⟨if_neg (by rw [hT]; omega), true, hT⟩
  rcases hF with hF | hF
  · exact .inr ⟨if_neg (by rw [hF]; omega), false, hF⟩
  left
  rw [if_pos (by rw [hT, hF]; omega), hT, hF]
  split
  · simp only [retune, Int.toNat_natCast]
    split <;> exact ⟨rfl, rfl⟩
  · exact ⟨by show dec.dataShards = d; omega, by show dec.parityShards = p; omega⟩

include hd hp hle in
/-- **One packet of the stream.** The decoder has the counts of the stream
afterwards, or it keeps its counts: then it waits for a pulse, or nothing was
wrong so far. -/
theorem decode_tunes (hs : AutoTune.Sorts lib.sort) (hinv : dec.Inv lib)
    (hS : AutoTune.OfStream d p dec.autoTune.toList) (hpkt : InStream d p u pkt)
    (h : dec.decode lib pkt = .ok (dec', r)) :
    Settled d p dec' ∨ (dec'.dataShards = dec.dataShards ∧ dec'.parityShards = dec.parityShards ∧
      ((dec'.shouldTune = true ∧ ∃ bit, dec'.autoTune.findPeriod lib.sort bit = -1) ∨
        (dec.shouldTune = false ∧ dec'.shouldTune = false ∧ flag pkt = dec.expected (seqid pkt)))) := by
  have hS' := decode_stream hS hpkt h
  have hauto := decode_autoTune h
  have hlt : seqid pkt < dec.paws := by
    have h1 := hinv.size
    have h2 := hinv.data
    have h3 := hinv.le
    have h4 := Nat.div_add_mod' (2 ^ 32 - 1) dec.shardSize
    have h5 := Nat.mod_lt (2 ^ 32 - 1) (show 0 < dec.shardSize by omega)
    rw [UInt32.lt_iff_toNat_lt, hpkt.id, hinv.paws, pawsOf_toNat h3]
    have := hpkt.low
    omega
  have hins : (((dec.sampled pkt).inserted pkt)).shouldTune = dec.shouldTune := by
    unfold inserted updateNewest
    split <;> rfl
  cases decode_cases h with
  | rejected hr => exact absurd hlt (UInt32.not_lt.mpr hr)
  | tuned _ ht =>
    have hc := (@sampled_same dec pkt).trans (checked_same pkt)
    have hauto' : ((dec.sampled pkt).checked pkt).autoTune = (dec.sampled pkt).autoTune := by
      unfold checked
      split <;> rfl
    have hSc : AutoTune.OfStream d p ((dec.sampled pkt).checked pkt).autoTune.toList := by
      rw [hauto']
      rw [hauto] at hS'
      exact hS'
    rcases tune_stream hd hp hle hs hSc (seqid pkt) with hset | ⟨he, hbit⟩
    · exact .inl hset
    · rw [he]
      exact .inr ⟨hc.data, hc.parity, .inl ⟨ht, hbit⟩⟩
  | repeated _ ht hf _ => exact .inr ⟨rfl, rfl, .inr ⟨ht, ht, hf⟩⟩
  | stored _ ht hf _ _ _ =>
    have hshape := (@sampled_same dec pkt).trans (inserted_same pkt)
    exact .inr ⟨hshape.data, hshape.parity, .inr ⟨ht, hins.trans ht, hf⟩⟩
  | completed _ ht hf _ _ _ _ =>
    have hshape := (@sampled_same dec pkt).trans (emptied_same pkt)
    exact .inr ⟨hshape.data, hshape.parity, .inr ⟨ht, hins.trans ht, hf⟩⟩

/-! ## Call after call -/

/-- Calls with packets of the stream, by their ids. -/
inductive Fed (lib : Lib) (d p : Nat) : FecDecoder → List Nat → FecDecoder → Prop where
  | nil (dec : FecDecoder) : Fed lib d p dec [] dec
  | cons {dec dec₁ dec' : FecDecoder} {u : Nat} {us : List Nat} {pkt : Bytes} {r : List Bytes} :
    InStream d p u pkt → dec.decode lib pkt = .ok (dec₁, r) → Fed lib d p dec₁ us dec' → Fed lib d p dec (u :: us) dec'

/-- What every call keeps. -/
structure OnStream (lib : Lib) (d p : Nat) (dec : FecDecoder) : Prop extends dec.Inv lib where
  samples : AutoTune.OfStream d p dec.autoTune.toList

theorem OnStream.decode (hm : lib.Makes) (h : OnStream lib d p dec) (hpkt : InStream d p u pkt)
    (hd : dec.decode lib pkt = .ok (dec', r)) : OnStream lib d p dec' :=
  ⟨decode_inv hm hpkt.lower hd h.toInv, decode_stream h.samples hpkt hd⟩

theorem Fed.split {us vs : List Nat} (h : Fed lib d p dec (us ++ vs) dec') :
    ∃ mid, Fed lib d p dec us mid ∧ Fed lib d p mid vs dec' := by
  induction us generalizing dec with
  | nil => exact ⟨dec, .nil _, h⟩
  | cons u us ih =>
    cases h with
    | cons hpkt hd hrest =>
      obtain ⟨mid, h1, h2⟩ := ih hrest
      exact ⟨mid, .cons hpkt hd h1, h2⟩

theorem Fed.low {us : List Nat} (h : Fed lib d p dec us dec') : ∀ u ∈ us, u < 2 ^ 31 := by
  induction h with
  | nil => exact fun u hu => absurd hu List.not_mem_nil
  | cons hpkt _ _ ih => exact List.forall_mem_cons.mpr ⟨hpkt.low, ih⟩

theorem Fed.onStream (hm : lib.Makes) {us : List Nat} (h : Fed lib d p dec us dec') (hb : OnStream lib d p dec) :
    OnStream lib d p dec' := by
  induction h with
  | nil => exact hb
  | cons hpkt hd _ ih => exact ih (hb.decode hm hpkt hd)

/-- The packets fit the decoder's counts. -/
theorem expected_iff (hb : OnStream lib d p dec) (hpkt : InStream d p u pkt)
    (hf : flag pkt = dec.expected (seqid pkt)) :
    u % (d + p) < d ↔ u % (dec.dataShards + dec.parityShards) < dec.dataShards := by
  have h1 := hb.le
  have h2 := hb.size
  have hd' : (UInt32.ofNat dec.dataShards).toNat = dec.dataShards := toNat_ofNat_small (by omega)
  have hmod : (seqid pkt % UInt32.ofNat dec.shardSize).toNat = u % (dec.dataShards + dec.parityShards) := by
    rw [UInt32.toNat_mod, toNat_ofNat_small h1, hpkt.id, h2]
  rw [hpkt.type, expected] at hf
  simp only [UInt32.lt_iff_toNat_lt, hd', hmod] at hf
  by_cases ha : u % (d + p) < d <;> by_cases hb : u % (dec.dataShards + dec.parityShards) < dec.dataShards
  · exact iff_of_true ha hb
  · rw [if_pos ha, if_neg hb] at hf
    cases hf
  · rw [if_neg ha, if_pos hb] at hf
    cases hf
  · exact iff_of_false ha hb

section
variable (hm : lib.Makes) (hs : AutoTune.Sorts lib.sort)
include hd hp hle hm hs

/-- The counts stay or become those of the stream. -/
theorem Fed.counts {us : List Nat} (h : Fed lib d p dec us dec') (hb : OnStream lib d p dec) :
    Settled d p dec' ∨ (dec'.dataShards = dec.dataShards ∧ dec'.parityShards = dec.parityShards) := by
  induction h with
  | nil => exact .inr ⟨rfl, rfl⟩
  | cons hpkt hdec _ ih =>
    rcases ih (hb.decode hm hpkt hdec) with hset | ⟨h1, h2⟩
    · exact .inl hset
    rcases decode_tunes hd hp hle hs hb.toInv hb.samples hpkt hdec with hset | ⟨h3, h4, -⟩
    · exact .inl ⟨h1.trans hset.1, h2.trans hset.2⟩
    · exact .inr ⟨h1.trans h3, h2.trans h4⟩

theorem Fed.settled {us : List Nat} (h : Fed lib d p dec us dec') (hb : OnStream lib d p dec) (hset : Settled d p dec) :
    Settled d p dec' := by
  rcases h.counts hd hp hle hm hs hb with h | ⟨h1, h2⟩
  · exact h
  · exact ⟨h1.trans hset.1, h2.trans hset.2⟩

/-- Fewer calls than samples are kept: those of the calls are all there, and
the decoder waits for a pulse or found nothing wrong. -/
theorem Fed.track {us : List Nat} (h : Fed lib d p dec us dec') (hb : OnStream lib d p dec) {ys : List Pulse}
    (hys : ys <:+ dec.autoTune.toList) (hlen : ys.length + us.length ≤ maxAutoTuneSamples) :
    ys ++ us.map (AutoTune.pulseAt d p) <:+ dec'.autoTune.toList ∧ (Settled d p dec' ∨ us = [] ∨
      (∃ bit, dec'.autoTune.findPeriod lib.sort bit = -1) ∨ (dec.shouldTune = false ∧
        ∀ u ∈ us, (u % (d + p) < d ↔ u % (dec.dataShards + dec.parityShards) < dec.dataShards))) := by
  induction h generalizing ys with
  | nil => exact ⟨by simpa using hys, .inr (.inl rfl)⟩
  | @cons dec dec₁ dec' u us pkt r hpkt hdec hrest ih =>
    have hb₁ := hb.decode hm hpkt hdec
    rw [List.length_cons] at hlen
    have hys₁ : ys ++ [AutoTune.pulseAt d p u] <:+ dec₁.autoTune.toList := by
      rw [decode_autoTune hdec, ← InStream.pulse hpkt]
      exact Ring.suffix_push _ hys (by omega)
    obtain ⟨hsuf, hres⟩ := ih hb₁ hys₁ (by rw [List.length_append, List.length_singleton]; omega)
    refine ⟨by simpa using hsuf, ?_⟩
    rcases hres with hset | hnil | hbit | ⟨hcalm, hall⟩
    · exact .inl hset
    · subst hnil
      cases hrest
      rcases decode_tunes hd hp hle hs hb.toInv hb.samples hpkt hdec with hset | ⟨-, -, ⟨-, hbit⟩ | ⟨h1, -, hf⟩⟩
      · exact .inl hset
      · exact .inr (.inr (.inl hbit))
      · refine .inr (.inr (.inr ⟨h1, fun v hv => ?_⟩))
        obtain rfl := List.mem_singleton.mp hv
        exact expected_iff hb hpkt hf
    · exact .inr (.inr (.inl hbit))
    · rcases decode_tunes hd hp hle hs hb.toInv hb.samples hpkt hdec with hset | ⟨h3, h4, ⟨ht, -⟩ | ⟨h1, -, hf⟩⟩
      · exact .inl (hrest.settled hd hp hle hm hs hb₁ hset)
      · exact absurd (hcalm.symm.trans ht) (by decide)
      · refine .inr (.inr (.inr ⟨h1, fun v hv => ?_⟩))
        rcases List.mem_cons.mp hv with rfl | hv
        · exact expected_iff hb hpkt hf
        · rw [← h3, ← h4]
          exact hall v hv

/-- **One group and two ids** from just before an edge set the counts. -/
theorem pattern_tunes {b q : Nat} (hb : b + 1 = (q + 1) * (d + p) ∨ b + 1 = q * (d + p) + d)
    (h : Fed lib d p dec (List.range' b (d + p + 2)) dec') (hon : OnStream lib d p dec) : Settled d p dec' := by
  have hon' := h.onStream hm hon
  have hmem : ∀ i ≤ d + p + 1, b + i ∈ List.range' b (d + p + 2) := by
    intro i hi
    rw [List.mem_range'_1]
    omega
  obtain ⟨hsuf, hres⟩ := h.track hd hp hle hm hs hon (List.nil_suffix : [] <:+ _)
    (by simp only [List.length_nil, List.length_range', maxAutoTuneSamples]; omega)
  rcases hres with hset | hnil | ⟨bit, hbit⟩ | ⟨-, hall⟩
  · exact hset
  · rw [List.range'_eq_nil_iff] at hnil
    omega
  · have hS : ∀ i ≤ d + p + 1, AutoTune.pulseAt d p (b + i) ∈ dec'.autoTune.toList :=
      fun i hi => hsuf.subset (List.mem_map_of_mem (hmem i hi))
    obtain ⟨hT, hF⟩ := AutoTune.pulses_of_pattern hd hp hb hS
    cases bit with
    | true => exact absurd hbit (AutoTune.findPeriod_complete hs hon'.samples.coherent hd (by omega) hT)
    | false => exact absurd hbit (AutoTune.findPeriod_complete hs hon'.samples.coherent hp (by omega) hF)
  · -- nothing was wrong: then the pulses have the widths of the decoder's counts
    have hS : AutoTune.OfStream dec.dataShards dec.parityShards
        ((List.range' b (d + p + 2)).map (AutoTune.pulseAt d p)) := by
      intro x hx
      obtain ⟨u, hu, rfl⟩ := List.mem_map.mp hx
      exact ⟨u, h.low u hu, by rw [AutoTune.pulseAt, AutoTune.pulseAt, decide_eq_decide.mpr (hall u hu)]⟩
    obtain ⟨hT, hF⟩ := AutoTune.pulses_of_pattern hd hp hb fun i hi => List.mem_map_of_mem (hmem i hi)
    have h1 := AutoTune.pulse_width hon.data hon.parity hS hd (by omega) hT
    have h2 := AutoTune.pulse_width hon.data hon.parity hS hp (by omega) hF
    exact h.settled hd hp hle hm hs hon ⟨h1.symm, h2.symm⟩

/-- **Two groups' worth of consecutive ids**, from anywhere, set the counts. -/
theorem consecutive_tunes {a : Nat} (h : Fed lib d p dec (List.range' a (2 * (d + p))) dec')
    (hon : OnStream lib d p dec) :
    Settled d p dec' := by
  have hr := Nat.mod_lt a (show 0 < d + p by omega)
  have ha := Nat.div_add_mod' a (d + p)
  generalize a % (d + p) = r at hr ha
  generalize a / (d + p) = q at ha
  have hz : (q + 1) * (d + p) = q * (d + p) + (d + p) := Nat.succ_mul _ _
  -- where the pattern begins
  obtain ⟨k, hk, hb⟩ : ∃ k, k + (d + p + 2) ≤ 2 * (d + p) ∧
      (a + k + 1 = (q + 1) * (d + p) ∨ a + k + 1 = q * (d + p) + d) := by
    rcases Nat.eq_zero_or_pos r with rfl | hpos
    · exact ⟨d - 1, by omega, .inr (by omega)⟩
    · exact ⟨d + p - 1 - r, by omega, .inl (by omega)⟩
  have hsplit : List.range' a (2 * (d + p)) = List.range' a k ++ (List.range' (a + k) (d + p + 2) ++
      List.range' (a + k + (d + p + 2)) (2 * (d + p) - (k + (d + p + 2)))) := by
    rw [List.range'_append_1, List.range'_append_1]
    congr 1
    omega
  rw [hsplit] at h
  obtain ⟨mid, h1, h2⟩ := h.split
  obtain ⟨mid', h3, h4⟩ := h2.split
  have hmid := h1.onStream hm hon
  exact h4.settled hd hp hle hm hs (h3.onStream hm hmid) (pattern_tunes hd hp hle hm hs hb h3 hmid)

end

end

end FecDecoder
end KcpGo.L2
