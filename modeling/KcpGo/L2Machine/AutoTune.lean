import KcpGo.Core.Ring
import KcpGo.L1Encoding.Segment
import Mathlib.Data.List.Perm.Subperm
import Mathlib.Data.List.Sort

/-!
# Detecting the shard counts of a FEC stream (`autotune.go`)

The last 258 packets are kept as pulses: a bit (data or parity) with a
sequence number. `FindPeriod` sorts them, drops repeats and numbers with
conflicting bits, and returns the width of the first complete pulse of the
wanted bit: the number of packets between two packets of the other kind, all
consecutive.

`sort.Slice` is a parameter (`Sorts` is its contract), since on numbers more
than 2^31 apart the comparison is no order and the result is unspecified.

* `findPeriod_sound`: a width returned is the width of a pulse in the window,
  whatever the sort did.
* `mem_collapse`: the compaction keeps the numbers seen with one bit only.
* `findPulse_first`: the scan returns the lowest pulse of ordered numbers.
* `findPeriod_complete`: a pulse among coherent samples is found.
* `findPeriod_spec`: the result is a function of the set of the last samples.
-/
namespace KcpGo.L2

open KcpGo.L1 KcpGo.Serial

/-- mirrors src/autotune.go:29 -/
def maxAutoTuneSamples : Nat := 258

/-- mirrors src/autotune.go:33-36 -/
structure Pulse where
  bit : Bool
  seq : UInt32
  deriving DecidableEq, Repr

/-- The other sample of the same number. -/
def Pulse.other (p : Pulse) : Pulse := ⟨!p.bit, p.seq⟩

/-- The samples (less the scratch array of `FindPeriod`).
mirrors src/autotune.go:45-51 -/
abbrev AutoTune := Ring Pulse maxAutoTuneSamples

namespace AutoTune

variable {bit : Bool} {s base : UInt32} {sort : List Pulse → List Pulse}

def empty : AutoTune := Ring.empty ⟨false, 0⟩ (by decide)

/-- mirrors src/autotune.go:54-65 (`Sample`) -/
def sample (t : AutoTune) (bit : Bool) (seq : UInt32) : AutoTune := t.push ⟨bit, seq⟩

/-- The comparison given to `sort.Slice`.
mirrors src/autotune.go:108-110 -/
def less (a b : Pulse) : Bool := decide (itimediff a.seq b.seq < 0)

/-- The duplicate loop after the first sample `p` of a number.
mirrors src/autotune.go:115-127 -/
def collapseFrom (p : Pulse) (conflict : Bool) : List Pulse → List Pulse
  | [] => if conflict then [] else [p]
  | q :: l =>
    if q.seq = p.seq then collapseFrom p (conflict || q.bit != p.bit) l
    else (if conflict then [] else [p]) ++ collapseFrom q false l

/-- mirrors src/autotune.go:114-128 -/
def collapse : List Pulse → List Pulse
  | [] => []
  | p :: l => collapseFrom p false l

/-- The search for the right edge after `prev`.
mirrors src/autotune.go:139-146 -/
def rightEdge (bit : Bool) (left : UInt32) (prev : Pulse) : List Pulse → Option Int
  | [] => none
  | q :: l =>
    if prev.seq + 1 ≠ q.seq then none
    else if q.bit ≠ bit then some (itimediff q.seq left).toInt
    else rightEdge bit left q l

/-- The search for a left edge between `prev` and the next sample.
mirrors src/autotune.go:133-147 -/
def leftEdge (bit : Bool) (prev : Pulse) : List Pulse → Int
  | [] => -1
  | q :: l =>
    if prev.bit = bit ∨ q.bit ≠ bit ∨ prev.seq + 1 ≠ q.seq then leftEdge bit q l
    else match rightEdge bit q.seq q l with
      | some n => n
      | none => leftEdge bit q l

def findPulse (bit : Bool) : List Pulse → Int
  | [] => -1
  | p :: l => leftEdge bit p l

/-- mirrors src/autotune.go:91-150 (`FindPeriod`) -/
def findPeriod (sort : List Pulse → List Pulse) (t : AutoTune) (bit : Bool) : Int :=
  if t.count < 3 then -1 else findPulse bit (collapse (sort t.toList))

/-- What `sort.Slice` does: it permutes, and it orders when the comparison
is an order of the given samples. -/
structure Sorts (sort : List Pulse → List Pulse) : Prop where
  perm : ∀ l, (sort l).Perm l
  ordered : ∀ l (key : Pulse → Nat), (∀ a ∈ l, ∀ b ∈ l, less a b = true ↔ key a < key b) →
    (sort l).Pairwise fun a b => key a ≤ key b

/-- A complete pulse: `w` consecutive samples of the bit between two samples
of the other. -/
def IsPulse (S : List Pulse) (bit : Bool) (w : Nat) : Prop :=
  ∃ s : UInt32, ⟨!bit, s⟩ ∈ S ∧ (∀ i < w, ⟨bit, s + 1 + u32 i⟩ ∈ S) ∧ ⟨!bit, s + 1 + u32 w⟩ ∈ S

/-- The pulse that begins behind number `s`. -/
def PulseAt (S : List Pulse) (bit : Bool) (s : UInt32) (w : Nat) : Prop :=
  ⟨!bit, s⟩ ∈ S ∧ (∀ i < w, ⟨bit, s + 1 + u32 i⟩ ∈ S) ∧ ⟨!bit, s + 1 + u32 w⟩ ∈ S

/-! ## A width returned is a width seen -/

theorem eq_of_bit_ne {p : Pulse} (h : p.bit ≠ bit) : p = ⟨!bit, p.seq⟩ := by
  obtain ⟨b, s⟩ := p
  cases b <;> cases bit <;> simp_all

theorem rightEdge_sound {left : UInt32} : ∀ {l : List Pulse} {prev : Pulse} {n : Int},
    rightEdge bit left prev l = some n → ∃ w < l.length, (∀ i < w, ⟨bit, prev.seq + 1 + u32 i⟩ ∈ l) ∧
      ⟨!bit, prev.seq + 1 + u32 w⟩ ∈ l ∧ n = (itimediff (prev.seq + 1 + u32 w) left).toInt := by
  intro l
  induction l with
  | nil =>
    intro prev n h
    cases h
  | cons q l ih =>
    intro prev n h
    rw [rightEdge] at h
    split at h
    · cases h
    rename_i hnext
    have hseq : prev.seq + 1 = q.seq := not_not.mp hnext
    split at h
    · rename_i hbit
      cases h
      refine ⟨0, by simp, by simp, ?_, by simp [hseq]⟩
      rw [eq_of_bit_ne hbit, hseq]
      simp
    · rename_i hbit
      have hq : q = ⟨bit, prev.seq + 1⟩ := by
        rw [hseq, ← not_not.mp hbit]
      obtain ⟨w, hw, hin, hout, hn⟩ := ih h
      rw [← hseq] at hin hout hn
      refine ⟨w + 1, by simpa using hw, fun i hi => ?_, ?_, ?_⟩
      · cases i with
        | zero => simp [hq]
        | succ i =>
          rw [← add_u32_succ]
          exact List.mem_cons_of_mem _ (hin i (by omega))
      · rw [← add_u32_succ]
        exact List.mem_cons_of_mem _ hout
      · rw [hn, add_u32_succ]

/-- From the left edge on, the difference returned is the number of samples passed. -/
theorem rightEdge_width {q : Pulse} {l : List Pulse} {n : Int} (hlen : l.length < 2 ^ 31)
    (h : rightEdge bit q.seq q l = some n) : ∃ w < l.length, (∀ i < w, ⟨bit, q.seq + 1 + u32 i⟩ ∈ l) ∧
      ⟨!bit, q.seq + 1 + u32 w⟩ ∈ l ∧ n = ((w + 1 : Nat) : Int) := by
  obtain ⟨w, hw, hin, hout, rfl⟩ := rightEdge_sound h
  refine ⟨w, hw, hin, hout, ?_⟩
  rw [add_u32_succ, itimediff, diff, toInt_toInt32, add_u32_sub _ (by omega), if_pos (by omega)]

theorem PulseAt.subset {S T : List Pulse} {w : Nat} (h : PulseAt S bit s w) (hs : S ⊆ T) :
    PulseAt T bit s w :=
  ⟨hs h.1, fun i hi => hs (h.2.1 i hi), hs h.2.2⟩

theorem IsPulse.subset {S T : List Pulse} {w : Nat} (h : IsPulse S bit w) (hs : S ⊆ T) :
    IsPulse T bit w := by
  obtain ⟨s, hp⟩ := h
  exact ⟨s, PulseAt.subset hp hs⟩

/-- The edges and the samples between them are a pulse. -/
theorem pulseAt_edge {prev q : Pulse} {l : List Pulse} {w : Nat} (hprev : prev.bit ≠ bit) (hq : q.bit = bit)
    (hseq : prev.seq + 1 = q.seq) (hin : ∀ i < w, ⟨bit, q.seq + 1 + u32 i⟩ ∈ l) (hout : ⟨!bit, q.seq + 1 + u32 w⟩ ∈ l) :
    PulseAt (prev :: q :: l) bit prev.seq (w + 1) := by
  have hqe : q = ⟨bit, prev.seq + 1⟩ := by
    rw [hseq, ← hq]
  rw [← hseq] at hin hout
  refine ⟨eq_of_bit_ne hprev ▸ List.mem_cons_self, fun i hi => ?_, ?_⟩
  · cases i with
    | zero => simp [hqe]
    | succ i =>
      rw [← add_u32_succ]
      exact List.mem_cons_of_mem _ (List.mem_cons_of_mem _ (hin i (by omega)))
  · rw [← add_u32_succ]
    exact List.mem_cons_of_mem _ (List.mem_cons_of_mem _ hout)

theorem leftEdge_sound : ∀ {l : List Pulse} {prev : Pulse}, l.length < 2 ^ 31 →
    leftEdge bit prev l = -1 ∨ ∃ w : Nat, leftEdge bit prev l = (w : Int) ∧ 1 ≤ w ∧ w + 2 ≤ (prev :: l).length ∧
      IsPulse (prev :: l) bit w := by
  intro l
  induction l with
  | nil => exact fun _ => .inl rfl
  | cons q l ih =>
    intro prev hlen
    have hrest : leftEdge bit q l = -1 ∨ ∃ w : Nat, leftEdge bit q l = (w : Int) ∧ 1 ≤ w ∧
        w + 2 ≤ (prev :: q :: l).length ∧ IsPulse (prev :: q :: l) bit w := by
      rcases @ih q (by simp only [List.length_cons] at hlen; omega) with h | ⟨w, hw, h1, hle, hp⟩
      · exact .inl h
      · exact .inr ⟨w, hw, h1, Nat.le_succ_of_le hle, hp.subset (List.subset_cons_self _ _)⟩
    rw [leftEdge]
    split
    · exact hrest
    rename_i hedge
    obtain ⟨hprev, hq, hseq⟩ : prev.bit ≠ bit ∧ q.bit = bit ∧ prev.seq + 1 = q.seq := by
      simpa [not_or] using hedge
    split
    · rename_i n hr
      obtain ⟨w, hw, hin, hout, rfl⟩ := rightEdge_width (Nat.lt_of_succ_lt hlen) hr
      exact .inr ⟨w + 1, rfl, by omega,
        by simp only [List.length_cons]; omega, prev.seq, pulseAt_edge hprev hq hseq hin hout⟩
    · exact hrest

theorem collapseFrom_sublist : ∀ (l : List Pulse) (p : Pulse) (c : Bool), (collapseFrom p c l).Sublist (p :: l) := by
  intro l
  induction l with
  | nil =>
    intro p c
    rw [collapseFrom]
    split <;> simp
  | cons q l ih =>
    intro p c
    rw [collapseFrom]
    split
    · exact (ih p _).trans (List.Sublist.cons_cons p (List.sublist_cons_self q l))
    · split
      · exact (ih q false).cons p
      · exact (ih q false).cons_cons p

theorem collapse_sublist (l : List Pulse) : (collapse l).Sublist l := by
  cases l with
  | nil => exact .slnil
  | cons p l => exact collapseFrom_sublist l p false

theorem findPulse_sound {l : List Pulse} (hlen : l.length < 2 ^ 31) : findPulse bit l = -1 ∨
    ∃ w : Nat, findPulse bit l = (w : Int) ∧ 1 ≤ w ∧ w + 2 ≤ l.length ∧ IsPulse l bit w := by
  cases l with
  | nil => exact .inl rfl
  | cons p l => exact leftEdge_sound (Nat.lt_of_succ_lt hlen)

theorem length_collapse (hs : ∀ l, (sort l).Perm l) (t : AutoTune) :
    (collapse (sort t.toList)).length ≤ t.count := by
  rw [← t.length_toList, ← (hs t.toList).length_eq]
  exact (collapse_sublist _).length_le

/-- A pulse takes three samples, so the first test changes nothing. -/
theorem findPeriod_eq (hs : ∀ l, (sort l).Perm l) (t : AutoTune) (bit : Bool) :
    findPeriod sort t bit = findPulse bit (collapse (sort t.toList)) := by
  unfold findPeriod
  split
  · rename_i hcount
    have hle := length_collapse hs t
    rcases @findPulse_sound bit (collapse (sort t.toList)) (by omega) with h | ⟨w, -, h1, hw, -⟩
    · exact h.symm
    · omega
  · rfl

/-- **Soundness.** A width `FindPeriod` returns is the width of a pulse among
the samples. -/
theorem findPeriod_sound (hs : ∀ l, (sort l).Perm l) (t : AutoTune) (bit : Bool) :
    findPeriod sort t bit = -1 ∨ ∃ w : Nat, findPeriod sort t bit = (w : Int) ∧ 1 ≤ w ∧ w ≤ 256 ∧
      IsPulse t.toList bit w := by
  have hle := length_collapse hs t
  have hcap : t.count ≤ 258 := t.count_le
  rw [findPeriod_eq hs]
  rcases @findPulse_sound bit (collapse (sort t.toList)) (by omega) with h | ⟨w, hw, h1, hw2, hp⟩
  · exact .inl h
  · exact .inr ⟨w, hw, h1, by omega, hp.subset fun p hp' => (hs _).subset ((collapse_sublist _).subset hp')⟩

/-! ## A pulse is found -/

section
variable {key : Pulse → Nat} {bit : Bool}
variable {l : List Pulse}

/-- Samples in strict order of `key`, which counts sequence numbers. -/
structure Ordered (key : Pulse → Nat) (l : List Pulse) : Prop where
  lt : l.Pairwise fun a b => key a < key b
  succ : ∀ a ∈ l, ∀ b ∈ l, b.seq = a.seq + 1 → key b = key a + 1

theorem Ordered.sublist {l' : List Pulse} (h : Ordered key l) (hs : l'.Sublist l) : Ordered key l' :=
  ⟨h.lt.sublist hs, fun a ha b hb => h.succ a (hs.subset ha) b (hs.subset hb)⟩

/-- Consecutive numbers stand next to each other. -/
theorem Ordered.next {x y : Pulse} (h : Ordered key (x :: l)) (hy : y ∈ l)
    (hseq : y.seq = x.seq + 1) : ∃ l', l = y :: l' := by
  have hkey := h.succ x List.mem_cons_self y (List.mem_cons_of_mem _ hy) hseq
  cases l with
  | nil => cases hy
  | cons z l' =>
    rcases List.mem_cons.mp hy with rfl | hy
    · exact ⟨l', rfl⟩
    · have h1 := (List.pairwise_cons.mp h.lt).1 z List.mem_cons_self
      have h2 := (List.pairwise_cons.mp (List.pairwise_cons.mp h.lt).2).1 y hy
      omega

theorem add_u32_ne {x : UInt32} {n : Nat} (h : n + 1 < 2 ^ 32) : x + u32 (n + 1) ≠ x := by
  intro he
  have := add_u32_sub x h
  rw [he] at this
  simp at this

theorem rightEdge_complete {left : UInt32} : ∀ {w : Nat} {prev : Pulse} {l : List Pulse}, w < 2 ^ 32 →
    Ordered key (prev :: l) → (∀ i < w, ⟨bit, prev.seq + 1 + u32 i⟩ ∈ l) → ⟨!bit, prev.seq + 1 + u32 w⟩ ∈ l →
    rightEdge bit left prev l ≠ none := by
  intro w
  induction w with
  | zero =>
    intro prev l _ ho _ hout
    obtain ⟨l', rfl⟩ := ho.next hout (by simp)
    simp [rightEdge]
  | succ w ih =>
    intro prev l hw ho hin hout
    have hq : (⟨bit, prev.seq + 1⟩ : Pulse) ∈ l := by simpa using hin 0 (Nat.succ_pos w)
    obtain ⟨l', rfl⟩ := ho.next hq rfl
    have hrest : ∀ (b : Bool) (i : Nat), i + 1 < 2 ^ 32 →
        (⟨b, prev.seq + 1 + u32 (i + 1)⟩ : Pulse) ∈ (⟨bit, prev.seq + 1⟩ :: l' : List Pulse) →
        (⟨b, prev.seq + 1 + 1 + u32 i⟩ : Pulse) ∈ l' := by
      intro b i hi hm
      rw [add_u32_succ]
      refine (List.mem_cons.mp hm).resolve_left fun he => ?_
      exact add_u32_ne hi (congrArg Pulse.seq he)
    have := @ih ⟨bit, prev.seq + 1⟩ l' (by omega) (ho.sublist (List.sublist_cons_self _ _))
      (fun i hi => hrest bit i (by omega) (hin (i + 1) (by omega))) (hrest _ w hw hout)
    simpa [rightEdge] using this

/-- The samples of a pulse have larger and larger keys. -/
theorem Ordered.key_eq {w : Nat} (ho : Ordered key l) (h : PulseAt l bit s w) :
    ∀ (i : Nat) (b : Bool), i ≤ w → (⟨b, s + 1 + u32 i⟩ : Pulse) ∈ l →
      key ⟨b, s + 1 + u32 i⟩ = key ⟨!bit, s⟩ + 1 + i := by
  obtain ⟨hl, hin, -⟩ := h
  intro i
  induction i with
  | zero =>
    intro b _ hb
    exact ho.succ _ hl _ hb (by simp)
  | succ i ih =>
    intro b hi hb
    have hseq : s + 1 + u32 (i + 1) = s + 1 + u32 i + 1 := by rw [← u32_succ, ← UInt32.add_assoc]
    rw [ho.succ _ (hin i hi) _ hb hseq, ih bit (by omega) (hin i hi)]
    omega

/-- A pulse that does not begin at the first sample lies behind it. -/
theorem Ordered.pulse_tail {x : Pulse} {w : Nat} (ho : Ordered key (x :: l))
    (h : PulseAt (x :: l) bit s w) (hne : (⟨!bit, s⟩ : Pulse) ≠ x) : PulseAt l bit s w := by
  have hl : (⟨!bit, s⟩ : Pulse) ∈ l := (List.mem_cons.mp h.1).resolve_left hne
  have hlt := (List.pairwise_cons.mp ho.lt).1 _ hl
  have hbehind : ∀ (i : Nat) (b : Bool), i ≤ w → (⟨b, s + 1 + u32 i⟩ : Pulse) ∈ x :: l →
      (⟨b, s + 1 + u32 i⟩ : Pulse) ∈ l := by
    intro i b hi hb
    have hk := ho.key_eq h i b hi hb
    refine (List.mem_cons.mp hb).resolve_left fun he => ?_
    rw [he] at hk
    omega
  exact ⟨hl, fun i hi => hbehind i bit (Nat.le_of_lt hi) (h.2.1 i hi), hbehind w _ (Nat.le_refl w) h.2.2⟩

/-- A pulse that begins at the first sample is found from there. -/
theorem Ordered.pulse_head {w : Nat} (ho : Ordered key (⟨!bit, s⟩ :: l)) (h1 : 1 ≤ w)
    (hw : w < 2 ^ 32) (h : PulseAt (⟨!bit, s⟩ :: l) bit s w) :
    ∃ l', l = ⟨bit, s + 1⟩ :: l' ∧ rightEdge bit (s + 1) ⟨bit, s + 1⟩ l' ≠ none := by
  have hrest : ∀ (i : Nat) (b : Bool), i ≤ w → (⟨b, s + 1 + u32 i⟩ : Pulse) ∈ (⟨!bit, s⟩ :: l : List Pulse) →
      (⟨b, s + 1 + u32 i⟩ : Pulse) ∈ l := by
    intro i b hi hb
    have hk := ho.key_eq h i b hi hb
    refine (List.mem_cons.mp hb).resolve_left fun he => ?_
    rw [he] at hk
    omega
  have hq : (⟨bit, s + 1⟩ : Pulse) ∈ l := by simpa using hrest 0 bit (Nat.zero_le _) (h.2.1 0 h1)
  obtain ⟨l', rfl⟩ := ho.next hq rfl
  refine ⟨l', rfl, ?_⟩
  obtain ⟨w, rfl⟩ : ∃ v, w = v + 1 := ⟨w - 1, by omega⟩
  have htail : ∀ (i : Nat) (b : Bool), i ≤ w →
      (⟨b, s + 1 + u32 (i + 1)⟩ : Pulse) ∈ (⟨!bit, s⟩ :: ⟨bit, s + 1⟩ :: l' : List Pulse) →
        (⟨b, s + 1 + 1 + u32 i⟩ : Pulse) ∈ l' := by
    intro i b hi hb
    rw [add_u32_succ]
    refine (List.mem_cons.mp (hrest (i + 1) b (by omega) hb)).resolve_left fun he => ?_
    exact add_u32_ne (by omega) (congrArg Pulse.seq he)
  exact rightEdge_complete (w := w) (by omega) (ho.sublist (List.sublist_cons_self _ _))
    (fun i hi => htail i bit (by omega) (h.2.1 (i + 1) (by omega))) (htail w _ (Nat.le_refl _) h.2.2)

/-- The scan returns the width of the lowest pulse, and -1 if there is none. -/
structure First (key : Pulse → Nat) (bit : Bool) (l : List Pulse) (n : Int) : Prop where
  found : n ≠ -1 → ∃ (s : UInt32) (w : Nat), n = (w : Int) ∧ 1 ≤ w ∧ PulseAt l bit s w ∧
    ∀ s' w', 1 ≤ w' → w' < 2 ^ 32 → PulseAt l bit s' w' → key ⟨!bit, s⟩ ≤ key ⟨!bit, s'⟩
  none : n = -1 → ∀ s w, 1 ≤ w → w < 2 ^ 32 → ¬ PulseAt l bit s w

/-- A first sample at which no pulse begins changes nothing. -/
theorem First.cons {x : Pulse} {n : Int} (ho : Ordered key (x :: l)) (h : First key bit l n)
    (hx : ∀ s w, 1 ≤ w → w < 2 ^ 32 → PulseAt (x :: l) bit s w → (⟨!bit, s⟩ : Pulse) ≠ x) :
    First key bit (x :: l) n where
  found := by
    intro hn
    obtain ⟨s, w, hw, h1, hp, hmin⟩ := h.found hn
    refine ⟨s, w, hw, h1, hp.subset (List.subset_cons_self _ _), fun s' w' h1' hw' hp' => ?_⟩
    exact hmin s' w' h1' hw' (ho.pulse_tail hp' (hx s' w' h1' hw' hp'))
  none := by
    intro hn s w h1 hw hp
    exact h.none hn s w h1 hw (ho.pulse_tail hp (hx s w h1 hw hp))

theorem leftEdge_first : ∀ {l : List Pulse} {prev : Pulse}, l.length < 2 ^ 31 → Ordered key (prev :: l) →
    First key bit (prev :: l) (leftEdge bit prev l) := by
  intro l
  induction l with
  | nil =>
    intro prev _ _
    refine ⟨fun h => absurd rfl h, fun _ s w h1 _ hp => ?_⟩
    have hb := (List.mem_singleton.mp hp.1).trans (List.mem_singleton.mp (hp.2.1 0 h1)).symm
    exact absurd (congrArg Pulse.bit hb) (by simp)
  | cons q l ih =>
    intro prev hlen ho
    have hrest := ih (Nat.lt_of_succ_lt hlen) (ho.sublist (List.sublist_cons_self _ _))
    rw [leftEdge]
    split
    · rename_i hedge
      -- no edge: a pulse that begins at `prev` would make one
      refine hrest.cons ho fun s w h1 hw hp he => ?_
      subst he
      obtain ⟨l', he, -⟩ := ho.pulse_head h1 hw hp
      cases he
      simp at hedge
    rename_i hedge
    obtain ⟨hprev, hq, hseq⟩ : prev.bit ≠ bit ∧ q.bit = bit ∧ prev.seq + 1 = q.seq := by
      simpa [not_or] using hedge
    split
    · rename_i n hr
      obtain ⟨w, -, hin, hout, rfl⟩ := rightEdge_width (Nat.lt_of_succ_lt hlen) hr
      refine ⟨fun _ => ?_, fun h => absurd h (by omega)⟩
      have hpe := eq_of_bit_ne hprev
      refine ⟨prev.seq, w + 1, rfl, by omega, pulseAt_edge hprev hq hseq hin hout, fun s' w' _ _ hp' => ?_⟩
      rw [← hpe]
      rcases List.mem_cons.mp hp'.1 with he | hm
      · rw [he]
      · exact Nat.le_of_lt ((List.pairwise_cons.mp ho.lt).1 _ hm)
    · rename_i hr
      refine hrest.cons ho fun s w h1 hw hp he => ?_
      subst he
      obtain ⟨l', he, hne⟩ := ho.pulse_head h1 hw hp
      cases he
      exact hne hr

theorem findPulse_first (hlen : l.length < 2 ^ 31) (ho : Ordered key l) :
    First key bit l (findPulse bit l) := by
  cases l with
  | nil => exact ⟨fun h => absurd rfl h, fun _ s w _ _ hp => absurd hp.1 List.not_mem_nil⟩
  | cons p l => exact leftEdge_first (Nat.lt_of_succ_lt hlen) ho

theorem other_eq_iff {p q : Pulse} (h : q.seq = p.seq) : p.other = q ↔ q.bit ≠ p.bit := by
  obtain ⟨pb, ps⟩ := p
  obtain ⟨qb, qs⟩ := q
  cases h
  cases pb <;> cases qb <;> simp [Pulse.other]

/-- The samples of a list whose number has one bit only, by its first one. -/
theorem one_bit_cons {x q : Pulse} :
    (if x.seq = q.seq then x = q ∧ false = false ∧ q.other ∉ l else x ∈ l ∧ x.other ∉ l) ↔
      x ∈ q :: l ∧ x.other ∉ q :: l := by
  by_cases hx : x.seq = q.seq
  · rw [if_pos hx, List.mem_cons, List.mem_cons, other_eq_iff hx.symm]
    constructor
    · rintro ⟨rfl, -, h⟩
      simpa using h
    · rintro ⟨-, h⟩
      obtain ⟨hb, hl⟩ := not_or.mp h
      have he : x = q := by
        obtain ⟨xb, xs⟩ := x
        obtain ⟨qb, qs⟩ := q
        cases hx
        exact congrArg (Pulse.mk · _) (not_not.mp hb).symm
      exact ⟨he, rfl, he ▸ hl⟩
  · have h1 : x ≠ q := fun he => hx (congrArg Pulse.seq he)
    have h2 : x.other ≠ q := by
      rintro rfl
      exact hx rfl
    rw [if_neg hx, List.mem_cons, List.mem_cons, or_iff_right h1, or_iff_right h2]

section
variable (hk : ∀ a b, key a = key b ↔ a.seq = b.seq)
include hk

/-- A number is not met again behind a larger one. -/
theorem seq_ne_of_sorted {p q : Pulse} (hs : (p :: q :: l).Pairwise fun a b => key a ≤ key b)
    (hne : q.seq ≠ p.seq) : ∀ x ∈ q :: l, key p < key x := by
  obtain ⟨hp, hq⟩ := List.pairwise_cons.mp hs
  have hlt : key p < key q := Nat.lt_of_le_of_ne (hp q List.mem_cons_self) fun he => hne ((hk p q).1 he).symm
  intro x hx
  rcases List.mem_cons.mp hx with rfl | hx
  · exact hlt
  · exact Nat.lt_of_lt_of_le hlt ((List.pairwise_cons.mp hq).1 x hx)

theorem collapseFrom_lt : ∀ {l : List Pulse} {p : Pulse} {c : Bool}, (p :: l).Pairwise (fun a b => key a ≤ key b) →
    (collapseFrom p c l).Pairwise fun a b => key a < key b := by
  intro l
  induction l with
  | nil =>
    intro p c _
    cases c <;> simp [collapseFrom]
  | cons q l ih =>
    intro p c hs
    rw [collapseFrom]
    split
    · exact ih (hs.sublist (List.Sublist.cons_cons p (List.sublist_cons_self q l)))
    · rename_i hseq
      have hrest := @ih q false (List.pairwise_cons.mp hs).2
      split
      · exact hrest
      · refine List.pairwise_cons.mpr ⟨fun x hx => ?_, hrest⟩
        exact seq_ne_of_sorted hk hs hseq x ((collapseFrom_sublist l q false).subset hx)

/-- Of the numbers behind `p` those stay that have one bit; `p` stays if its
number had one bit so far and has no other. -/
theorem mem_collapseFrom {x : Pulse} : ∀ {l : List Pulse} {p : Pulse} {c : Bool},
    (p :: l).Pairwise (fun a b => key a ≤ key b) →
    (x ∈ collapseFrom p c l ↔ if x.seq = p.seq then x = p ∧ c = false ∧ p.other ∉ l else x ∈ l ∧ x.other ∉ l) := by
  intro l
  induction l with
  | nil =>
    intro p c _
    by_cases hx : x.seq = p.seq
    · cases c <;> simp [collapseFrom, hx]
    · have : x ≠ p := fun he => hx (congrArg Pulse.seq he)
      cases c <;> simp [collapseFrom, hx, this]
  | cons q l ih =>
    intro p c hs
    rw [collapseFrom]
    split
    · rename_i hseq
      rw [ih (hs.sublist (List.Sublist.cons_cons p (List.sublist_cons_self q l)))]
      by_cases hx : x.seq = p.seq
      · rw [if_pos hx, if_pos hx, List.mem_cons, other_eq_iff hseq]
        cases c <;> cases q.bit <;> cases p.bit <;> simp
      · have h1 : x ≠ q := fun he => hx (he ▸ hseq)
        have h2 : x.other ≠ q := fun he => hx ((congrArg Pulse.seq he).trans hseq)
        rw [if_neg hx, if_neg hx, List.mem_cons, List.mem_cons, or_iff_right h1, or_iff_right h2]
    · rename_i hseq
      have hfresh : ∀ y ∈ q :: l, y.seq ≠ p.seq := fun y hy he =>
        Nat.ne_of_gt (seq_ne_of_sorted hk hs hseq y hy) ((hk y p).2 he)
      rw [List.mem_append, ih (List.pairwise_cons.mp hs).2, one_bit_cons]
      by_cases hx : x.seq = p.seq
      · have h1 : x ∉ q :: l := fun hm => hfresh x hm hx
        have h2 : p.other ∉ q :: l := fun hm => hfresh p.other hm rfl
        cases c <;> simp [hx, h1, h2]
      · have h1 : x ≠ p := fun he => hx (congrArg Pulse.seq he)
        cases c <;> simp [hx, h1]

end

/-- **The compaction.** Sorted samples keep the numbers seen with one bit
only, each once. -/
theorem mem_collapse (hk : ∀ a b, key a = key b ↔ a.seq = b.seq) {x : Pulse}
    (hs : l.Pairwise fun a b => key a ≤ key b) : x ∈ collapse l ↔ x ∈ l ∧ x.other ∉ l := by
  cases l with
  | nil => simp [collapse]
  | cons p l =>
    rw [collapse, mem_collapseFrom hk hs, one_bit_cons]

theorem collapse_lt (hk : ∀ a b, key a = key b ↔ a.seq = b.seq) (hs : l.Pairwise fun a b => key a ≤ key b) :
    (collapse l).Pairwise fun a b => key a < key b := by
  cases l with
  | nil => exact List.Pairwise.nil
  | cons p l => exact collapseFrom_lt hk hs

end

/-- The samples lie on half of the circle and no number has both bits. -/
structure Coherent (S : List Pulse) (base : UInt32) : Prop where
  half : ∀ a ∈ S, (a.seq - base).toNat < 2 ^ 31
  bits : ∀ a ∈ S, ∀ b ∈ S, a.seq = b.seq → a = b

theorem less_iff {a b : Pulse} (ha : (a.seq - base).toNat < 2 ^ 31) (hb : (b.seq - base).toNat < 2 ^ 31) :
    less a b = true ↔ (a.seq - base).toNat < (b.seq - base).toNat := by
  rw [less, decide_eq_true_iff, itimediff, diff_neg]
  simp only [UInt32.toNat_sub] at *
  have := a.seq.toNat_lt
  have := b.seq.toNat_lt
  have := base.toNat_lt
  omega

/-- The place of a number on the half circle from `base`. -/
def offset (base : UInt32) (p : Pulse) : Nat := (p.seq - base).toNat

theorem offset_eq_iff (base : UInt32) (a b : Pulse) : offset base a = offset base b ↔ a.seq = b.seq := by
  rw [offset, offset, UInt32.toNat_inj, UInt32.sub_eq_add_neg, UInt32.sub_eq_add_neg, Serial.add_right_inj]

section
variable {sort : List Pulse → List Pulse} (hs : Sorts sort) {S : List Pulse} {base : UInt32}
  (hhalf : ∀ a ∈ S, offset base a < 2 ^ 31)
include hs hhalf

/-- What the scan reads: the numbers seen with one bit only, in order. -/
theorem ordered_collapse : Ordered (offset base) (collapse (sort S)) := by
  have hord := hs.ordered S (offset base) fun a ha b hb => less_iff (hhalf a ha) (hhalf b hb)
  refine ⟨collapse_lt (offset_eq_iff base) hord, fun a ha b hb hseq => ?_⟩
  have hmem : ∀ {a : Pulse}, a ∈ collapse (sort S) → a ∈ S :=
    fun h => (hs.perm S).subset ((collapse_sublist _).subset h)
  have h1 := hhalf a (hmem ha)
  have h2 := hhalf b (hmem hb)
  rw [offset, hseq] at h2
  rw [offset, offset, hseq]
  rw [offset] at h1
  simp only [UInt32.toNat_sub, UInt32.toNat_add, UInt32.toNat_one] at *
  have := a.seq.toNat_lt
  have := base.toNat_lt
  omega

theorem mem_collapse_sort {x : Pulse} : x ∈ collapse (sort S) ↔ x ∈ S ∧ x.other ∉ S := by
  have hord := hs.ordered S (offset base) fun a ha b hb => less_iff (hhalf a ha) (hhalf b hb)
  rw [mem_collapse (offset_eq_iff base) hord, (hs.perm S).mem_iff, (hs.perm S).mem_iff]

end

/-- **Completeness.** A pulse among the samples is found, or another one. -/
theorem findPeriod_complete (hs : Sorts sort) {t : AutoTune}
    {w : Nat} (hc : Coherent t.toList base) (h1 : 1 ≤ w) (hw : w ≤ 256) (hp : IsPulse t.toList bit w) :
    findPeriod sort t bit ≠ -1 := by
  obtain ⟨s, hp⟩ := hp
  have hkept : t.toList ⊆ collapse (sort t.toList) := by
    intro x hx
    refine (mem_collapse_sort hs hc.half).2 ⟨hx, fun ho => ?_⟩
    have := congrArg Pulse.bit (hc.bits x hx x.other ho rfl)
    simp [Pulse.other] at this
  have hcap : t.count ≤ 258 := t.count_le
  have hlen := length_collapse hs.perm t
  have hfirst := @findPulse_first _ bit _ (by omega) (ordered_collapse hs hc.half)
  rw [findPeriod_eq hs.perm]
  intro hn
  exact hfirst.none hn s w h1 (by omega) (PulseAt.subset hp hkept)

/-! ## The specification -/

/-- A number sampled with one bit only. -/
def Only (S : Set Pulse) (bit : Bool) (s : UInt32) : Prop := ⟨bit, s⟩ ∈ S ∧ ⟨!bit, s⟩ ∉ S

/-- A complete run of the bit behind number `s`: `w` consecutive numbers, each
sampled with this bit only, between two adjacent numbers with the other bit
only. -/
structure Run (S : Set Pulse) (bit : Bool) (s : UInt32) (w : Nat) : Prop where
  pos : 1 ≤ w
  before : Only S (!bit) s
  inside : ∀ i < w, Only S bit (s + 1 + u32 i)
  behind : Only S (!bit) (s + 1 + u32 w)

/-- What `FindPeriod` should return: the width of the first run counted from
`base`, or -1. -/
def Period (S : Set Pulse) (base : UInt32) (bit : Bool) (n : Int) : Prop :=
  (∃ s w, Run S bit s w ∧ (∀ s' w', Run S bit s' w' → (s - base).toNat ≤ (s' - base).toNat) ∧ n = w) ∨
    ((∀ s w, ¬ Run S bit s w) ∧ n = -1)

theorem Only.absurd {S : Set Pulse} (h : Only S bit s) (h' : Only S (!bit) s) : False :=
  h.2 h'.1

theorem Run.width_le {S : Set Pulse} {v w : Nat} (h : Run S bit s v) (h' : Run S bit s w) :
    v ≤ w := by
  refine Nat.le_of_not_lt fun hlt => ?_
  exact (h.inside w hlt).absurd h'.behind

/-- A run does not reach its left edge again. -/
theorem Run.width_lt {S : Set Pulse} {w : Nat} (h : Run S bit s w) : w < 2 ^ 32 := by
  refine Nat.lt_of_not_le fun hle => ?_
  have hin := h.inside (2 ^ 32 - 1) (by omega)
  have hs : s + 1 + u32 (2 ^ 32 - 1) = s := by
    rw [add_u32_succ, show u32 (2 ^ 32 - 1 + 1) = 0 from rfl, UInt32.add_zero]
  exact (hs ▸ hin).absurd h.before

theorem Period.unique {S : Set Pulse} {m n : Int} (hm : Period S base bit m)
    (hn : Period S base bit n) : m = n := by
  rcases hm with ⟨s, v, hr, hfirst, rfl⟩ | ⟨hno, rfl⟩ <;> rcases hn with ⟨s', w, hr', hfirst', rfl⟩ | ⟨hno', rfl⟩
  · have hs : s = s' := by
      have := Nat.le_antisymm (hfirst s' w hr') (hfirst' s v hr)
      exact (offset_eq_iff base ⟨bit, s⟩ ⟨bit, s'⟩).1 this
    subst hs
    exact congrArg _ (Nat.le_antisymm (hr.width_le hr') (hr'.width_le hr))
  · exact absurd hr (hno' s v)
  · exact absurd hr' (hno s' w)
  · rfl

/-- The scan's pulses are the runs of the samples. -/
theorem pulseAt_iff {S : Set Pulse} {l : List Pulse} (hl : ∀ x : Pulse, x ∈ l ↔ Only S x.bit x.seq)
    {w : Nat} : 1 ≤ w ∧ PulseAt l bit s w ↔ Run S bit s w := by
  constructor
  · rintro ⟨h1, h, hin, hout⟩
    exact ⟨h1, (hl _).1 h, fun i hi => (hl _).1 (hin i hi), (hl _).1 hout⟩
  · intro h
    exact ⟨h.pos, (hl _).2 h.before, fun i hi => (hl _).2 (h.inside i hi), (hl _).2 h.behind⟩

/-- The samples of a history that are still in the ring. -/
def recent (hist : List Pulse) : List Pulse := hist.drop (hist.length - maxAutoTuneSamples)

/-- The state after a history of samples. -/
def sampled (hist : List Pulse) : AutoTune := hist.foldl (fun t p => t.sample p.bit p.seq) empty

theorem toList_sampled (hist : List Pulse) : (sampled hist).toList = recent hist :=
  Ring.toList_foldl_push _ _ hist

theorem findPeriod_period (hs : Sorts sort) {hist : List Pulse}
    (hhalf : ∀ p ∈ recent hist, (p.seq - base).toNat < 2 ^ 31) (bit : Bool) :
    Period {p | p ∈ recent hist} base bit (findPeriod sort (sampled hist) bit) := by
  have hlist := toList_sampled hist
  rw [← hlist] at hhalf ⊢
  generalize sampled hist = t at hhalf
  have hcap : t.count ≤ 258 := t.count_le
  have hlen := length_collapse hs.perm t
  have hfirst := @findPulse_first _ bit _ (by omega) (ordered_collapse hs hhalf)
  have hrun : ∀ s w, 1 ≤ w ∧ PulseAt (collapse (sort t.toList)) bit s w ↔ Run {p | p ∈ t.toList} bit s w :=
    fun s w => pulseAt_iff fun x => mem_collapse_sort hs hhalf
  rw [findPeriod_eq hs.perm]
  by_cases hn : findPulse bit (collapse (sort t.toList)) = -1
  · refine .inr ⟨fun s w h => ?_, hn⟩
    obtain ⟨h1, hp⟩ := (hrun s w).2 h
    exact hfirst.none hn s w h1 h.width_lt hp
  · obtain ⟨s, w, hw, h1, hp, hmin⟩ := hfirst.found hn
    refine .inl ⟨s, w, (hrun s w).1 ⟨h1, hp⟩, fun s' w' h' => ?_, hw⟩
    obtain ⟨h1', hp'⟩ := (hrun s' w').2 h'
    exact hmin s' w' h1' h'.width_lt hp'

/-- **The specification.** After any history whose last samples lie on half of
the circle from `base`, `FindPeriod` returns the width of the first complete
run among them, or -1. The order and the number of the samples, those before
them and the way the sort orders equal numbers do not matter. -/
theorem findPeriod_spec {sort : List Pulse → List Pulse} (hs : Sorts sort) (hist : List Pulse) (base : UInt32)
    (hhalf : ∀ p ∈ recent hist, (p.seq - base).toNat < 2 ^ 31) (bit : Bool) :
    Period {p | p ∈ recent hist} base bit (findPeriod sort (sampled hist) bit) ∧
      (hist.length < 3 → findPeriod sort (sampled hist) bit = -1) ∧
      ∀ (sort' : List Pulse → List Pulse) (hist' : List Pulse), Sorts sort' →
        (∀ p, p ∈ recent hist' ↔ p ∈ recent hist) →
        findPeriod sort' (sampled hist') bit = findPeriod sort (sampled hist) bit := by
  refine ⟨findPeriod_period hs hhalf bit, fun hlen => ?_, fun sort' hist' hs' hsame => ?_⟩
  · have hcount : (sampled hist).count < 3 := by
      rw [← Ring.length_toList, toList_sampled, recent, List.length_drop]
      omega
    exact if_pos hcount
  · have hset : {p | p ∈ recent hist'} = {p | p ∈ recent hist} := Set.ext hsame
    have h' := findPeriod_period hs' (fun p hp => hhalf p ((hsame p).1 hp)) bit
    rw [hset] at h'
    exact h'.unique (findPeriod_period hs hhalf bit)

/-! ## A sort that keeps the contract -/

def insertionSort (l : List Pulse) : List Pulse := l.insertionSort fun a b => less b a = false

theorem sorts_insertionSort : Sorts insertionSort where
  perm := List.perm_insertionSort _
  ordered := by
    intro l key hkey
    have hle : ∀ a ∈ l, ∀ b ∈ l, less b a = false ↔ key a ≤ key b := by
      intro a ha b hb
      rw [← Nat.not_lt, ← hkey b hb a ha, Bool.not_eq_true]
    have hsorted := List.pairwise_insertionSort (fun a b : Nat => a ≤ b) (l.map key)
    rw [← List.map_insertionSort _ _ key l hle, List.pairwise_map] at hsorted
    exact hsorted

/-- Two data packets across the wrap, one of them sampled twice and out of
order. -/
theorem findPeriod_spec_wrap :
    let hist : List Pulse := [⟨true, 0⟩, ⟨false, 4294967294⟩, ⟨false, 1⟩, ⟨true, 4294967295⟩, ⟨true, 0⟩]
    findPeriod insertionSort (sampled hist) true = 2 ∧
      Period {p | p ∈ recent hist} 4294967294 true (findPeriod insertionSort (sampled hist) true) :=
  ⟨by decide +kernel, (findPeriod_spec sorts_insertionSort _ _ (by decide +kernel) true).1⟩

end AutoTune
end KcpGo.L2
