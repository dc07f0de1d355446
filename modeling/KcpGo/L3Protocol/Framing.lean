import KcpGo.L3Protocol.RxRefine

/-!
# Fragments and messages

`Send` cuts a message into fragments numbered down to 0 (`Frames`), `Recv`
puts the segments up to the next 0 together again.

* `send_frames`: what `Send` appends to `snd_queue`.
* `readable_frames`: a queue that starts with the fragments of messages gives
  back the first of these messages, and only when it is complete.
-/
namespace KcpGo.L3

open KcpGo.L1 KcpGo.L2

variable {m buffer : Bytes} {n mss : Nat}

/-- The fragments of a message, the first one numbered `n`. -/
inductive Frames : Nat → Bytes → List Payload → Prop where
  | last (d : Bytes) : Frames 0 d [(0, d)]
  | more {n : Nat} {m : Bytes} {fs : List Payload} (d : Bytes) (hn : n + 1 < 255) (h : Frames n m fs) :
    Frames (n + 1) (d ++ m) ((UInt8.ofNat (n + 1), d) :: fs)

/-- `fs` are the fragments of the message `m`. -/
def Framed (m : Bytes) (fs : List Payload) : Prop := ∃ n, Frames n m fs

theorem Frames.length {fs : List Payload} (h : Frames n m fs) : fs.length = n + 1 := by
  induction h with
  | last d => rfl
  | more d hn h ih => rw [List.length_cons, ih]

theorem Frames.lt {fs : List Payload} (h : Frames n m fs) : n < 255 := by
  cases h with
  | last => decide
  | more d hn h => exact hn

theorem Frames.first {fs : List Payload} (h : Frames n m fs) :
    ∃ d fs', fs = (UInt8.ofNat n, d) :: fs' := by
  cases h with
  | last => exact ⟨_, [], rfl⟩
  | more d hn h => exact ⟨d, _, rfl⟩

theorem ofNat_ne_zero (h0 : 0 < n) (hn : n < 255) : UInt8.ofNat n ≠ 0 := by
  intro h
  have := congrArg UInt8.toNat h
  rw [UInt8.toNat_ofNat', UInt8.toNat_zero] at this
  omega

/-! ## Cutting -/

theorem fragments_frames : ∀ {n : Nat} {buffer : Bytes} {segs : List Segment},
    KCP.fragments 0 mss (n + 1) buffer = .ok segs → n < 255 → buffer.length ≤ (n + 1) * mss →
      Frames n buffer (segs.map content) := by
  intro n
  induction n with
  | zero =>
    intro buffer segs h _ hlen
    rw [KCP.fragments] at h
    split at h
    · cases h
    cases h
    have hall : buffer.take (min buffer.length mss) = buffer := by
      rw [Nat.zero_add, Nat.one_mul] at hlen
      rw [Nat.min_eq_left hlen, List.take_length]
    have hc : (([{ frg := 0, data := some (buffer.take (min buffer.length mss)) }] : List Segment).map content) =
        [(0, buffer)] := by
      rw [hall]
      rfl
    exact hc ▸ Frames.last buffer
  | succ n ih =>
    intro buffer segs h hn hlen
    rw [KCP.fragments] at h
    split at h
    · cases h
    obtain ⟨rest, hr, h⟩ := Go.bind_ok h
    cases h
    have hrest : Frames n (buffer.drop (min buffer.length mss)) (rest.map content) := by
      refine ih hr (by omega) ?_
      rw [List.length_drop]
      rw [Nat.succ_mul] at hlen
      omega
    have hmore := Frames.more (buffer.take (min buffer.length mss)) hn hrest
    rw [List.take_append_drop] at hmore
    exact hmore

theorem fragments_bytes {stream : Int32} : ∀ {n : Nat} {buffer : Bytes} {segs : List Segment},
    KCP.fragments stream mss n buffer = .ok segs → buffer.length ≤ n * mss → segs.flatMap Segment.bytes = buffer := by
  intro n
  induction n with
  | zero =>
    intro buffer segs h hlen
    cases h
    rw [Nat.zero_mul, Nat.le_zero, List.length_eq_zero_iff] at hlen
    rw [hlen]
    rfl
  | succ n ih =>
    intro buffer segs h hlen
    rw [KCP.fragments] at h
    split at h
    · cases h
    obtain ⟨rest, hr, h⟩ := Go.bind_ok h
    cases h
    have hrest := ih hr (by rw [List.length_drop]; rw [Nat.succ_mul] at hlen; omega)
    rw [List.flatMap_cons, hrest]
    exact List.take_append_drop _ _

theorem fragCount_enough {len : Nat} (h : KCP.fragCount mss len = .ok n) : 0 < n ∧ len ≤ n * mss := by
  unfold KCP.fragCount at h
  split at h
  · rename_i hle
    cases h
    exact ⟨Nat.one_pos, by rw [Nat.one_mul]; exact hle⟩
  · rename_i hgt
    split at h
    · cases h
    · rename_i hpos
      cases h
      have hm : 0 < mss := Nat.pos_of_ne_zero hpos
      refine ⟨Nat.div_pos (by omega) hm, ?_⟩
      have h1 := Nat.div_add_mod (len + mss - 1) mss
      have h2 := Nat.mod_lt (len + mss - 1) hm
      rw [Nat.mul_comm] at h1
      omega

/-- Without coalescing: refused, or cut into fragments. -/
theorem sendFresh_frames {k e : KCP} {r : Int} (h : k.sendFresh buffer = .ok (e, r)) :
    (e = k ∧ r ≠ 0) ∨ ∃ segs, e.sndQueue = k.sndQueue ++ segs ∧ r = 0 ∧ segs.flatMap Segment.bytes = buffer ∧
      (k.stream = 0 → Framed buffer (segs.map content)) := by
  rcases KCP.sendFresh_spec h with ⟨rfl, hr⟩ | ⟨n, segs, hn, hle, hs, rfl, hr⟩
  · exact .inl ⟨rfl, by omega⟩
  · obtain ⟨hpos, hlen⟩ := fragCount_enough hn
    refine .inr ⟨segs, rfl, hr, fragments_bytes hs hlen, fun h0 => ?_⟩
    obtain ⟨m, rfl⟩ := Nat.exists_eq_succ_of_ne_zero (Nat.pos_iff_ne_zero.mp hpos)
    rw [h0] at hs
    exact ⟨m, fragments_frames hs (by omega) hlen⟩

theorem extendTail_bytes {q q' : List Segment} {left : Bytes}
    (h : KCP.extendTail mss q buffer = .ok (q', left)) :
    q'.flatMap Segment.bytes ++ left = q.flatMap Segment.bytes ++ buffer := by
  unfold KCP.extendTail at h
  split at h
  · cases h
    rfl
  · rename_i seg hlast
    split at h
    · dsimp only at h
      split at h
      · cases h
      · cases h
        have hq : q = q.dropLast ++ [seg] := (List.dropLast_append_getLast? seg hlast).symm
        have hseg : q.flatMap Segment.bytes = q.dropLast.flatMap Segment.bytes ++ seg.bytes := by
          conv_lhs => rw [hq]
          simp
        rw [hseg, List.flatMap_append, List.flatMap_singleton]
        simp only [Segment.bytes, Option.getD_some, List.append_assoc, List.take_append_drop]
    · cases h
      rfl

/-- **What `Send` queues**: in message mode the fragments of the message; in
stream mode its bytes. -/
theorem send_frames {k e : KCP} {r : Int} (h : k.send buffer = .ok (e, r)) :
    (k.stream = 0 → (r ≠ 0 ∧ e.sndQueue = k.sndQueue) ∨
      (r = 0 ∧ ∃ fs, Framed buffer fs ∧ e.sndQueue.map content = k.sndQueue.map content ++ fs)) ∧
      (k.stream ≠ 0 → (buffer = [] ∧ r ≠ 0 ∧ e.sndQueue = k.sndQueue) ∨ (buffer ≠ [] ∧ r ≠ 0) ∨
        (r = 0 ∧ e.sndQueue.flatMap Segment.bytes = k.sndQueue.flatMap Segment.bytes ++ buffer)) := by
  unfold KCP.send at h
  split at h
  · rename_i hb
    cases h
    exact ⟨fun _ => .inl ⟨by decide, rfl⟩, fun _ => .inl ⟨hb, by decide, rfl⟩⟩
  rename_i hb
  split at h
  · rename_i hs
    refine ⟨fun _ => ?_, fun hn => absurd hs hn⟩
    rcases sendFresh_frames h with ⟨rfl, hr⟩ | ⟨segs, hq, hr, -, hf⟩
    · exact .inl ⟨hr, rfl⟩
    · exact .inr ⟨hr, segs.map content, hf hs, by rw [hq, List.map_append]⟩
  · rename_i hs
    refine ⟨fun h0 => absurd h0 hs, fun _ => .inr ?_⟩
    obtain ⟨⟨q, left⟩, hx, h⟩ := Go.bind_ok h
    have hbytes := extendTail_bytes hx
    dsimp only at h
    split at h
    · rename_i hleft
      cases h
      rw [hleft, List.append_nil] at hbytes
      exact .inr ⟨rfl, hbytes⟩
    · rcases sendFresh_frames h with ⟨rfl, hr⟩ | ⟨segs, hq, hr, hsb, -⟩
      · exact .inl ⟨hb, hr⟩
      · refine .inr ⟨hr, ?_⟩
        rw [hq, List.flatMap_append, hsb]
        exact hbytes

/-! ## Putting together -/

/-- The segments up to the next 0 are the message. -/
theorem messageSegs_frames {fs : List Payload} (h : Frames n m fs) :
    ∀ {q : List Segment} {r : List Payload}, q.map content = fs ++ r →
      (KCP.messageSegs q).map content = fs ∧ (KCP.messageSegs q).flatMap Segment.bytes = m := by
  induction h with
  | last d =>
    intro q r hq
    cases q with
    | nil => cases hq
    | cons s q =>
      simp only [List.map_cons, List.cons_append, List.nil_append, List.cons.injEq] at hq
      have h0 : s.frg = 0 := congrArg Prod.fst hq.1
      have hd : s.bytes = d := congrArg Prod.snd hq.1
      rw [KCP.messageSegs, if_pos h0]
      simp [hq.1, hd]
  | @more n m fs d hn h ih =>
    intro q r hq
    cases q with
    | nil => cases hq
    | cons s q =>
      simp only [List.map_cons, List.cons_append, List.cons.injEq] at hq
      have hf : s.frg = UInt8.ofNat (n + 1) := congrArg Prod.fst hq.1
      have hd : s.bytes = d := congrArg Prod.snd hq.1
      have h0 : s.frg ≠ 0 := hf ▸ ofNat_ne_zero (Nat.succ_pos n) hn
      obtain ⟨h1, h2⟩ := ih hq.2
      rw [KCP.messageSegs, if_neg h0]
      simp [hq.1, hd, h1, h2]

/-- A queue that starts with a whole message is readable. -/
theorem peekSize_nonneg {k : KCP} {fs r : List Payload} (h : Frames n m fs)
    (hq : k.rcvQueue.map content = fs ++ r) : 0 ≤ k.peekSize := by
  obtain ⟨d, fs', rfl⟩ := h.first
  have hlen := congrArg List.length hq
  rw [List.length_map, List.length_append, h.length] at hlen
  unfold KCP.peekSize
  cases hk : k.rcvQueue with
  | nil =>
    rw [hk] at hq
    cases hq
  | cons s q =>
    have hfrg : s.frg = UInt8.ofNat n := by
      rw [hk] at hq
      simp only [List.map_cons, List.cons_append, List.cons.injEq] at hq
      exact congrArg Prod.fst hq.1
    have hlt := h.lt
    dsimp only
    split
    · exact Int.natCast_nonneg _
    · rw [if_neg]
      · exact Int.natCast_nonneg _
      · rw [hfrg, UInt8.toNat_add, UInt8.toNat_ofNat', UInt8.toNat_one, ← hk]
        omega

/-- **A message is read whole.** The queue holds a beginning of the fragments
of some messages; if `Recv` takes anything, it is the first message. -/
theorem readable_frames {k : KCP} {room : Nat} {ms : List Bytes} {fss : List (List Payload)}
    (hf : List.Forall₂ Framed ms fss) (hq : k.rcvQueue.map content <+: fss.flatten) (hr : k.readable room) :
    ∃ m ms' fs fss', ms = m :: ms' ∧ fss = fs :: fss' ∧ List.Forall₂ Framed ms' fss' ∧
      (KCP.messageSegs k.rcvQueue).map content = fs ∧ (KCP.messageSegs k.rcvQueue).flatMap Segment.bytes = m := by
  have hpeek := hr.1
  unfold KCP.peekSize at hpeek
  cases hk : k.rcvQueue with
  | nil =>
    rw [hk] at hpeek
    exact absurd hpeek (by decide)
  | cons s q =>
    rw [hk] at hpeek hq
    cases hf with
    | nil =>
      have := hq.length_le
      simp at this
    | @cons m fs ms' fss' hm hrest =>
      obtain ⟨n, hn⟩ := hm
      obtain ⟨d, fs', rfl⟩ := hn.first
      have hlt := hn.lt
      have hlen := hn.length
      obtain ⟨r, hr'⟩ := hq
      -- the first segment tells how many there are
      have hfrg : s.frg = UInt8.ofNat n := by
        simp only [List.map_cons, List.flatten_cons, List.cons_append, List.cons.injEq] at hr'
        exact congrArg Prod.fst hr'.1
      have hall : n + 1 ≤ (s :: q).length := by
        dsimp only at hpeek
        split at hpeek
        · rename_i h0
          rw [hfrg] at h0
          have : n = 0 := by
            by_contra hne
            exact ofNat_ne_zero (Nat.pos_of_ne_zero hne) hlt h0
          simp [this]
        · split at hpeek
          · exact absurd hpeek (by decide)
          · rename_i hge
            rw [hfrg, UInt8.toNat_add, UInt8.toNat_ofNat', UInt8.toNat_one] at hge
            omega
      have hpre : (s :: q).map content = ((UInt8.ofNat n, d) :: fs') ++
          ((s :: q).map content).drop (n + 1) := by
        conv_lhs => rw [← List.take_append_drop (n + 1) ((s :: q).map content)]
        congr 1
        rw [List.flatten_cons] at hr'
        have h1 := congrArg (List.take (n + 1)) hr'
        rw [List.take_append_of_le_length (by simpa using hall), List.take_append_of_le_length (by omega)] at h1
        rw [h1, ← hlen, List.take_length]
      obtain ⟨h1, h2⟩ := messageSegs_frames hn hpre
      exact ⟨m, ms', _, fss', rfl, rfl, hrest, h1, h2⟩

end KcpGo.L3
