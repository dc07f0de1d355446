import KcpGo.L3Protocol.Framing
import KcpGo.L3Protocol.Packets

/-!
# What `Send` does to `snd_queue`

`Grew stream mss q b q'`: `q'` is `q` with the bytes `b` behind it. In stream
mode the last segment of `q` may take the first of them, up to `mss`; the rest
is in new segments of 1 to `mss` bytes.

* `send_cases`: what a `Send` returns, and how the queue grew.
* `Grew.trans`: one `Send` after another.
* `send_all_or_nothing`: a `Send` that fails leaves everything as it was,
  unless it has filled up the last segment before it counts the fragments.
-/
namespace KcpGo.L3

open KcpGo.L1 KcpGo.L2

/-- A segment of 1 to `mss` bytes. -/
def Sized (mss : Nat) (s : Segment) : Prop := 1 ≤ s.len ∧ s.len ≤ mss

/-- A segment with more bytes behind its own. -/
def extended (t : Segment) (ext : Bytes) : Segment := { t with data := some (t.bytes ++ ext) }

@[simp] theorem extended_bytes (t : Segment) (ext : Bytes) : (extended t ext).bytes = t.bytes ++ ext := rfl

@[simp] theorem extended_len (t : Segment) (ext : Bytes) : (extended t ext).len = t.len + ext.length := by
  simp [Segment.len]

theorem extended_extended (t : Segment) (a b : Bytes) : extended (extended t a) b = extended t (a ++ b) := by
  simp [extended, Segment.bytes, List.append_assoc]

inductive Grew (stream : Int32) (mss : Nat) (q : List Segment) (b : Bytes) : List Segment → Prop where
  | fresh {new : List Segment} (hsize : ∀ s ∈ new, Sized mss s) (hb : new.flatMap Segment.bytes = b) :
      Grew stream mss q b (q ++ new)
  | filled {q₀ new : List Segment} {t : Segment} {ext : Bytes} (hs : stream ≠ 0) (hq : q = q₀ ++ [t]) (hext : ext ≠ [])
      (hlen : t.len + ext.length ≤ mss) (hsize : ∀ s ∈ new, Sized mss s) (hb : ext ++ new.flatMap Segment.bytes = b) :
      Grew stream mss q b (q₀ ++ extended t ext :: new)

section
variable {stream : Int32} {mss : Nat} {q q' q'' : List Segment} {b c : Bytes}

theorem Grew.refl : Grew stream mss q [] q := by
  have h : Grew stream mss q [] (q ++ []) := Grew.fresh (by simp) rfl
  rwa [List.append_nil] at h

/-- The bytes are those of `q` and then `b`. -/
theorem Grew.bytes (h : Grew stream mss q b q') : q'.flatMap Segment.bytes = q.flatMap Segment.bytes ++ b := by
  cases h with
  | fresh hsize hb => rw [List.flatMap_append, hb]
  | filled hs hq hext hlen hsize hb => simp [hq, ← hb]

theorem sized_append {l m : List Segment} (hl : ∀ s ∈ l, Sized mss s) (hm : ∀ s ∈ m, Sized mss s) :
    ∀ s ∈ l ++ m, Sized mss s := by
  intro s hs
  rcases List.mem_append.mp hs with hs | hs
  · exact hl s hs
  · exact hm s hs

theorem sized_extended {t : Segment} {ext : Bytes} (hext : ext ≠ []) (hlen : t.len + ext.length ≤ mss) :
    Sized mss (extended t ext) := by
  have := List.length_pos_iff.mpr hext
  unfold Sized
  rw [extended_len]
  omega

/-- More new segments behind. -/
theorem Grew.more (h : Grew stream mss q b q') {new : List Segment} (hsize : ∀ s ∈ new, Sized mss s) :
    Grew stream mss q (b ++ new.flatMap Segment.bytes) (q' ++ new) := by
  cases h with
  | fresh hsize' hb =>
    rw [List.append_assoc]
    exact .fresh (sized_append hsize' hsize) (by rw [List.flatMap_append, hb])
  | filled hs hq hext hlen hsize' hb =>
    rw [List.append_assoc, List.cons_append]
    refine .filled hs hq hext hlen (sized_append hsize' hsize) ?_
    rw [List.flatMap_append, ← List.append_assoc, hb]

/-- The last segment, old or new, takes more bytes. -/
theorem Grew.fill (h : Grew stream mss q b q') (hs : stream ≠ 0) {q₀ : List Segment} {t : Segment} {ext : Bytes}
    (hq' : q' = q₀ ++ [t]) (hext : ext ≠ []) (hlen : t.len + ext.length ≤ mss) :
    Grew stream mss q (b ++ ext) (q₀ ++ [extended t ext]) := by
  cases h with
  | @fresh new hsize hb =>
    rcases List.eq_nil_or_concat new with rfl | ⟨new', t', rfl⟩
    · rw [List.append_nil] at hq'
      exact .filled hs hq' hext hlen (by simp) (by simp [← hb])
    · rw [List.concat_eq_append, ← List.append_assoc] at hq'
      obtain ⟨rfl, he⟩ := List.append_inj' hq' rfl
      cases he
      rw [List.append_assoc]
      refine .fresh (sized_append (fun s hm => hsize s ?_) ?_) ?_
      · simp [hm]
      · simpa using sized_extended hext hlen
      · simp [← hb]
  | @filled q₁ new t₁ ext₁ hs hq hext₁ hlen₁ hsize hb =>
    rcases List.eq_nil_or_concat new with rfl | ⟨new', t', rfl⟩
    · obtain ⟨rfl, he⟩ := List.append_inj' hq' rfl
      cases he
      rw [extended_extended]
      rw [extended_len] at hlen
      refine .filled hs hq (by simp [hext]) ?_ (by simp) (by simp [← hb])
      rw [List.length_append]
      omega
    · have hassoc : q₁ ++ extended t₁ ext₁ :: new'.concat t' = (q₁ ++ extended t₁ ext₁ :: new') ++ [t'] := by simp
      rw [hassoc] at hq'
      obtain ⟨rfl, he⟩ := List.append_inj' hq' rfl
      cases he
      rw [List.append_assoc, List.cons_append]
      refine .filled hs hq hext₁ hlen₁ (sized_append (fun s hm => hsize s ?_) ?_) ?_
      · simp [hm]
      · simpa using sized_extended hext hlen
      · simp [← hb]

theorem Grew.trans (h : Grew stream mss q b q') (h' : Grew stream mss q' c q'') : Grew stream mss q (b ++ c) q'' := by
  cases h' with
  | fresh hsize hb =>
    rw [← hb]
    exact h.more hsize
  | @filled q₀ new t ext hs hq hext hlen hsize hb =>
    have hfill := (h.fill hs hq hext hlen).more hsize
    rw [← hb]
    simpa using hfill

end

/-! ## Fragments -/

theorem fragCount_tight {mss len n : Nat} (h : KCP.fragCount mss len = .ok n) (hlen : 0 < len) :
    (n - 1) * mss < len := by
  unfold KCP.fragCount at h
  split at h
  · cases h
    simpa using hlen
  · rename_i hgt
    split at h
    · cases h
    · rename_i hpos
      cases h
      have hm : 0 < mss := Nat.pos_of_ne_zero hpos
      have h1 := Nat.div_mul_le_self (len + mss - 1) mss
      rw [Nat.sub_mul, Nat.one_mul]
      omega

/-- More than 255 fragments are needed exactly when 255 cannot hold the bytes. -/
theorem fragCount_many {mss len n : Nat} (h : KCP.fragCount mss len = .ok n) (hlen : 0 < len) :
    255 < n ↔ 255 * mss < len := by
  obtain ⟨hpos, henough⟩ := fragCount_enough h
  have htight := fragCount_tight h hlen
  constructor
  · intro hn
    exact Nat.lt_of_le_of_lt (Nat.mul_le_mul_right mss (by omega)) htight
  · intro hmany
    by_contra hn
    have := Nat.mul_le_mul_right mss (Nat.not_lt.mp hn)
    omega

theorem fragments_sized {stream : Int32} {mss : Nat} (hmss : 0 < mss) :
    ∀ {n : Nat} {buffer : Bytes} {segs : List Segment},
    KCP.fragments stream mss n buffer = .ok segs → (n - 1) * mss < buffer.length → ∀ s ∈ segs, Sized mss s := by
  intro n
  induction n with
  | zero =>
    intro buffer segs h _
    cases h
    simp
  | succ n ih =>
    intro buffer segs h htight
    rw [KCP.fragments] at h
    split at h
    · cases h
    obtain ⟨rest, hr, h⟩ := Go.bind_ok h
    cases h
    have hfirst : ∀ frg, Sized mss { frg := frg, data := some (buffer.take (min buffer.length mss)) } := by
      intro frg
      simp only [Sized, Segment.len, Segment.bytes, Option.getD_some, List.length_take]
      omega
    have hrest : ∀ s ∈ rest, Sized mss s := by
      cases n with
      | zero =>
        cases hr
        simp
      | succ n =>
        refine ih hr ?_
        rw [List.length_drop]
        rw [Nat.add_sub_cancel, Nat.succ_mul] at htight
        rw [Nat.add_sub_cancel]
        omega
    simpa using ⟨hfirst _, hrest⟩

theorem fragments_frg {mss : Nat} : ∀ {n : Nat} {buffer : Bytes} {segs : List Segment},
    KCP.fragments 0 mss n buffer = .ok segs → segs.map Segment.frg = (List.range n).reverse.map UInt8.ofNat := by
  intro n
  induction n with
  | zero =>
    intro buffer segs h
    cases h
    rfl
  | succ n ih =>
    intro buffer segs h
    rw [KCP.fragments] at h
    split at h
    · cases h
    obtain ⟨rest, hr, h⟩ := Go.bind_ok h
    cases h
    rw [List.map_cons, ih hr, List.range_succ, List.reverse_append]
    rfl

/-! ## `Send` -/

/-- The bytes that still fit into the last segment of the queue. -/
def spare (mss : Nat) (q : List Segment) : Nat :=
  match q.getLast? with
  | none => 0
  | some seg => mss - seg.len

/-- What `Send` puts into the last segment: nothing in message mode. -/
def spareRoom (k : KCP) : Nat := if k.stream = 0 then 0 else spare k.mss.toNat k.sndQueue

theorem Grew.ne {stream : Int32} {mss : Nat} {q q' : List Segment} {b : Bytes}
    (h : Grew stream mss q b q') (hb : b ≠ []) :
    q' ≠ q := by
  intro he
  have hbytes := h.bytes
  rw [he] at hbytes
  exact hb (List.self_eq_append_right.mp hbytes)

theorem Grew.nil {stream : Int32} {mss : Nat} {q q' : List Segment} (h : Grew stream mss q [] q') : q' = q := by
  cases h with
  | @fresh new hsize hb =>
    cases new with
    | nil => exact List.append_nil q
    | cons s new =>
      have hs := (hsize s List.mem_cons_self).1
      rw [List.flatMap_cons, List.append_eq_nil_iff] at hb
      rw [Segment.len, hb.1] at hs
      cases hs
  | filled hs hq hext hlen hsize hb => exact absurd (List.append_eq_nil_iff.mp hb).1 hext

/-- `Send` leaves all but the last segment alone. -/
theorem Grew.split {stream : Int32} {mss : Nat} {q q' : List Segment} {b : Bytes} (h : Grew stream mss q b q') :
    ∃ l₁ l₂ l₂' : List Segment, q = l₁ ++ l₂ ∧ q' = l₁ ++ l₂' ∧ ∀ s ∈ l₂', s.len ≤ mss := by
  cases h with
  | @fresh new hsize hb => exact ⟨q, [], new, (List.append_nil q).symm, rfl, fun s hs => (hsize s hs).2⟩
  | @filled q₀ new t ext hs hq hext hlen hsize hb =>
    refine ⟨q₀, [t], extended t ext :: new, hq, rfl, fun s hs => ?_⟩
    rcases List.mem_cons.mp hs with rfl | hs
    · rw [extended_len]
      exact hlen
    · exact (hsize s hs).2

theorem extendTail_grew {stream : Int32} {mss : Nat} {q q' : List Segment} {b left : Bytes}
    (hs : stream ≠ 0) (hb : b ≠ [])
    (h : KCP.extendTail mss q b = .ok (q', left)) :
    Grew stream mss q (b.take (spare mss q)) q' ∧ left = b.drop (spare mss q) := by
  unfold KCP.extendTail at h
  cases hlast : q.getLast? with
  | none =>
    have hspare : spare mss q = 0 := by simp [spare, hlast]
    simp only [hlast] at h
    cases h
    rw [hspare]
    exact ⟨Grew.refl, rfl⟩
  | some t =>
    have hspare : spare mss q = mss - t.len := by simp [spare, hlast]
    have hq : q = q.dropLast ++ [t] := (List.dropLast_append_getLast? t hlast).symm
    simp only [hlast] at h
    rw [hspare]
    split at h
    · rename_i hroom
      split at h
      · cases h
      · cases h
        have htake : b.take (min b.length (mss - t.len)) = b.take (mss - t.len) := by
          rw [Nat.min_comm, ← List.take_take, List.take_length]
        have hdrop : b.drop (min b.length (mss - t.len)) = b.drop (mss - t.len) := by
          by_cases hle : b.length ≤ mss - t.len
          · rw [Nat.min_eq_left hle, List.drop_length, List.drop_of_length_le hle]
          · rw [Nat.min_eq_right (Nat.le_of_not_le hle)]
        have hpos := List.length_pos_iff.mpr hb
        have hne : b.take (mss - t.len) ≠ [] := by
          rw [← List.length_pos_iff, List.length_take]
          omega
        rw [htake, hdrop]
        refine ⟨.filled hs hq hne ?_ (by simp) (by simp), rfl⟩
        rw [List.length_take]
        omega
    · rename_i hfull
      cases h
      rw [Nat.sub_eq_zero_of_le (Nat.not_lt.mp hfull)]
      exact ⟨Grew.refl, rfl⟩

/-- After coalescing: refused, or in new segments. -/
theorem sendFresh_grew {k e : KCP} {b : Bytes} {r : Int} (hb : b ≠ []) (h : k.sendFresh b = .ok (e, r)) :
    (e = k ∧ r = -2 ∧ 255 * k.mss.toNat < b.length) ∨
    (r = 0 ∧ b.length ≤ 255 * k.mss.toNat ∧ ∃ new, e = { k with sndQueue := k.sndQueue ++ new } ∧
      (∀ s ∈ new, Sized k.mss.toNat s) ∧ new.flatMap Segment.bytes = b ∧
      (k.stream = 0 → new.map Segment.frg = (List.range new.length).reverse.map UInt8.ofNat)) := by
  have hpos := List.length_pos_iff.mpr hb
  unfold KCP.sendFresh at h
  obtain ⟨n, hn, h⟩ := Go.bind_ok h
  have hmany := fragCount_many hn hpos
  have hmss : 0 < k.mss.toNat := by
    obtain ⟨-, henough⟩ := fragCount_enough hn
    by_contra hzero
    rw [Nat.eq_zero_of_not_pos hzero, Nat.mul_zero] at henough
    omega
  split at h
  · rename_i hgt
    cases h
    exact .inl ⟨rfl, rfl, hmany.mp hgt⟩
  · rename_i hle
    obtain ⟨segs, hs, h⟩ := Go.bind_ok h
    cases h
    refine .inr ⟨rfl, Nat.not_lt.mp (mt hmany.mpr hle), segs, rfl, fragments_sized hmss hs (fragCount_tight hn hpos),
      fragments_bytes hs (fragCount_enough hn).2, fun h0 => ?_⟩
    rw [h0] at hs
    have hfrg := fragments_frg hs
    have hlen := congrArg List.length hfrg
    simp only [List.length_map, List.length_reverse, List.length_range] at hlen
    rw [hlen]
    exact hfrg

/-- What `Send` returns, and what it queues. -/
theorem send_cases {k e : KCP} {b : Bytes} {r : Int} (h : k.send b = .ok (e, r)) :
    (b = [] ∧ e = k ∧ r = -1) ∨
    (b ≠ [] ∧ r = -2 ∧ spareRoom k + 255 * k.mss.toNat < b.length ∧
      ∃ q, e = { k with sndQueue := q } ∧ Grew k.stream k.mss.toNat k.sndQueue (b.take (spareRoom k)) q) ∨
    (b ≠ [] ∧ r = 0 ∧ b.length ≤ spareRoom k + 255 * k.mss.toNat ∧
      ∃ q, e = { k with sndQueue := q } ∧ Grew k.stream k.mss.toNat k.sndQueue b q) := by
  unfold KCP.send at h
  split at h
  · rename_i hb
    cases h
    exact .inl ⟨hb, rfl, rfl⟩
  rename_i hb
  right
  split at h
  · -- message mode
    rename_i hs
    have hspare : spareRoom k = 0 := if_pos hs
    rw [hspare, Nat.zero_add]
    rcases sendFresh_grew hb h with ⟨rfl, hr, hmany⟩ | ⟨hr, hfew, new, rfl, hsize, hbytes, -⟩
    · exact .inl ⟨hb, hr, hmany, _, rfl, Grew.refl⟩
    · exact .inr ⟨hb, hr, hfew, _, rfl, .fresh hsize hbytes⟩
  · rename_i hs
    have hspare : spareRoom k = spare k.mss.toNat k.sndQueue := if_neg hs
    obtain ⟨⟨q, left⟩, hx, h⟩ := Go.bind_ok h
    obtain ⟨hgrew, rfl⟩ := extendTail_grew hs hb hx
    rw [← hspare] at hgrew h
    dsimp only at h
    split at h
    · rename_i hleft
      cases h
      have hle := List.drop_eq_nil_iff.mp hleft
      rw [List.take_of_length_le hle] at hgrew
      exact .inr ⟨hb, rfl, by omega, q, rfl, hgrew⟩
    · rename_i hleft
      have hlen : (b.drop (spareRoom k)).length = b.length - spareRoom k := List.length_drop
      rcases sendFresh_grew hleft h with ⟨rfl, hr, hmany⟩ | ⟨hr, hfew, new, rfl, hsize, hbytes, -⟩
      · refine .inl ⟨hb, hr, ?_, q, rfl, hgrew⟩
        dsimp only at hmany
        omega
      · refine .inr ⟨hb, hr, ?_, _, rfl, ?_⟩
        · dsimp only at hfew
          omega
        · have := hgrew.more hsize
          rw [hbytes, List.take_append_drop] at this
          exact this

/-- Whatever it returns, `Send` adds bytes at the end of the queue. -/
theorem send_grew {k e : KCP} {b : Bytes} {r : Int} (h : k.send b = .ok (e, r)) :
    ∃ c q, e = { k with sndQueue := q } ∧ Grew k.stream k.mss.toNat k.sndQueue c q := by
  rcases send_cases h with ⟨-, rfl, -⟩ | ⟨-, -, -, q, he, hgrew⟩ | ⟨-, -, -, q, he, hgrew⟩
  · exact ⟨[], e.sndQueue, rfl, Grew.refl⟩
  · exact ⟨_, q, he, hgrew⟩
  · exact ⟨_, q, he, hgrew⟩

/-- In message mode the fragments are numbered down to 0. -/
theorem send_countdown {k e : KCP} {b : Bytes} {r : Int} (h : k.send b = .ok (e, r)) (hs : k.stream = 0) (hr : r = 0) :
    ∃ new, e.sndQueue = k.sndQueue ++ new ∧ new.map Segment.frg = (List.range new.length).reverse.map UInt8.ofNat := by
  unfold KCP.send at h
  split at h
  · cases h
    cases hr
  · rename_i hb
    rcases sendFresh_grew hb h with ⟨-, hr', -⟩ | ⟨-, -, new, rfl, -, -, hfrg⟩
    · rw [hr'] at hr
      cases hr
    · exact ⟨new, rfl, hfrg hs⟩

/-- A `Send` that queues the whole buffer, or returns an error and changes
nothing. -/
structure AllOrNothing (k : KCP) (b : Bytes) (e : KCP) (r : Int) : Prop where
  all : r = 0 → ∃ q, e = { k with sndQueue := q } ∧ q.flatMap Segment.bytes = k.sndQueue.flatMap Segment.bytes ++ b ∧
    Grew k.stream k.mss.toNat k.sndQueue b q ∧
    (k.stream = 0 → ∃ new, q = k.sndQueue ++ new ∧
      new.map Segment.frg = (List.range new.length).reverse.map UInt8.ofNat)
  nothing : r < 0 → e = k

/-- **All or nothing, but for a full count.** In stream mode the last segment
is filled up before the fragments are counted. -/
theorem send_all_or_nothing {k e : KCP} {b : Bytes} {r : Int} (h : k.send b = .ok (e, r)) :
    AllOrNothing k b e r ↔ ¬ (0 < spareRoom k ∧ spareRoom k + 255 * k.mss.toNat < b.length) := by
  rcases send_cases h with ⟨rfl, rfl, rfl⟩ | ⟨hb, rfl, hmany, q, he, hgrew⟩ | ⟨hb, hr, hfew, q, rfl, hgrew⟩
  · refine ⟨fun _ => by simp, fun _ => ⟨fun h0 => ?_, fun _ => rfl⟩⟩
    cases h0
  · have hsame : e = k ↔ spareRoom k = 0 := by
      constructor
      · intro hk
        by_contra hroom
        have hne : b.take (spareRoom k) ≠ [] := by
          rw [ne_eq, List.take_eq_nil_iff]
          simp [hb, hroom]
        rw [he] at hk
        exact hgrew.ne hne (congrArg KCP.sndQueue hk)
      · intro hroom
        rw [hroom, List.take_zero] at hgrew
        rw [he, hgrew.nil]
    constructor
    · intro hall hc
      have := hsame.mp (hall.nothing (by decide))
      omega
    · intro hc
      refine ⟨fun h0 => ?_, fun _ => hsame.mpr ?_⟩
      · cases h0
      · omega
  · refine ⟨fun _ => by omega, fun _ => ⟨fun _ => ?_, fun hneg => ?_⟩⟩
    · exact ⟨q, rfl, hgrew.bytes, hgrew, fun hs => send_countdown h hs hr⟩
    · rw [hr] at hneg
      cases hneg

/-- Stream mode, an MTU of 26 and one byte in the queue. -/
def oneQueued : Go KCP := do
  let (k, _) ← KCP.setMtu { newKCP 7 with stream := 1 } 26
  let (k, _) ← k.send [1]
  .ok k

theorem send_all_or_nothing_short : ∃ k e, oneQueued = .ok k ∧ k.send (List.replicate 511 0) = .ok (e, 0) ∧
    AllOrNothing k (List.replicate 511 0) e 0 := by
  obtain ⟨k, hk, htest⟩ : ∃ k, oneQueued = .ok k ∧ ((k.send (List.replicate 511 0)).test fun x => decide (x.2 = 0) &&
      decide (¬ (0 < spareRoom k ∧ spareRoom k + 255 * k.mss.toNat < 511))) = true := Go.of_test (by decide +kernel)
  obtain ⟨⟨e, r⟩, he, hr⟩ := Go.of_test htest
  simp only [Bool.and_eq_true, decide_eq_true_eq] at hr
  obtain ⟨rfl, hc⟩ := hr
  exact ⟨k, e, hk, he, (send_all_or_nothing he).mpr (by rw [List.length_replicate]; exact hc)⟩

/-- **Something and an error.** The 512 bytes need 256 fragments after the
first of them has been put into the last segment: `Send` returns -2 and that
byte stays. -/
theorem send_partial : ∃ k e, oneQueued = .ok k ∧ k.send (List.replicate 512 0) = .ok (e, -2) ∧
    k.sndQueue.map Segment.bytes = [[1]] ∧ e.sndQueue.map Segment.bytes = [[1, 0]] := by
  obtain ⟨k, hk, htest⟩ : ∃ k, oneQueued = .ok k ∧ ((k.send (List.replicate 512 0)).test fun x => decide (x.2 = -2) &&
      (decide (k.sndQueue.map Segment.bytes = [[1]]) && decide (x.1.sndQueue.map Segment.bytes = [[1, 0]]))) = true :=
    Go.of_test (by decide +kernel)
  obtain ⟨⟨e, r⟩, he, hr⟩ := Go.of_test htest
  simp only [Bool.and_eq_true, decide_eq_true_eq] at hr
  obtain ⟨rfl, hbefore, hafter⟩ := hr
  exact ⟨k, e, hk, he, hbefore, hafter⟩

end KcpGo.L3
