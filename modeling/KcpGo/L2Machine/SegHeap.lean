import KcpGo.Core.BinHeap
import KcpGo.L1Encoding.Segment
import Mathlib.Data.Finset.Basic
import Mathlib.Data.Finset.Image

/-!
# `segmentHeap`: the reorder buffer of the receiver (`kcp.go:151-189`)

A `container/heap` of segments ordered by the signed wrapped difference of
their sequence numbers, with the set of numbers it holds (`marks`).

The comparison is circular, so it orders nothing by itself. Inside a window
of less than 2^31 numbers it compares distances from the window's start
(`keyed_of_window`), and then the heap's root is the number nearest to it
(`Inv.pop`).
-/
namespace KcpGo.L2

open KcpGo.L1

/-- mirrors src/kcp.go:152-155 -/
structure SegHeap where
  segments : List Segment
  marks : Finset UInt32
  deriving DecidableEq

namespace SegHeap

variable {b : UInt32}

/-- `Less(i, j)` on the two segments.
mirrors src/kcp.go:167-169 -/
def less (a b : Segment) : Bool := decide (0 < itimediff b.sn a.sn)

/-- mirrors src/kcp.go:157-163 (`newSegmentHeap`) -/
def empty : SegHeap := ⟨[], ∅⟩

/-- `heap.Push(h, x)`.
mirrors src/kcp.go:172-175 -/
def push (h : SegHeap) (x : Segment) : SegHeap :=
  ⟨BinHeap.push less h.segments x, insert x.sn h.marks⟩

/-- `heap.Pop(h)`; `none` when the heap is empty.
mirrors src/kcp.go:177-184 -/
def pop (h : SegHeap) : Option (Segment × SegHeap) :=
  (BinHeap.pop less h.segments).map fun p => (p.1, ⟨p.2, h.marks.erase p.1.sn⟩)

/-- mirrors src/kcp.go:186-189 -/
def has (h : SegHeap) (sn : UInt32) : Bool := decide (sn ∈ h.marks)

/-! ## The window -/

/-- Distance of a segment from the window's start `b`. -/
def key (b : UInt32) (s : Segment) : Nat := (s.sn - b).toNat

theorem keyed_of_window {l : List Segment} (h : ∀ s ∈ l, key b s < 2 ^ 31) :
    BinHeap.Keyed less (key b) l := by
  intro x hx y hy
  have h1 := h x hx
  have h2 := h y hy
  unfold key at h1 h2 ⊢
  unfold less
  rw [decide_eq_decide, itimediff, Serial.diff_pos]
  have := x.sn.toNat_lt; have := y.sn.toNat_lt; have := b.toNat_lt
  simp only [UInt32.toNat_sub] at *; omega

theorem key_inj {s t : Segment} (h : key b s = key b t) : s.sn = t.sn := by
  unfold key at h
  rw [UInt32.toNat_sub, UInt32.toNat_sub] at h
  have := s.sn.toNat_lt; have := t.sn.toNat_lt; have := b.toNat_lt
  rw [← UInt32.toNat_inj]; omega

/-- What the receiver relies on: `marks` is the set of numbers held, no
number twice, heap order, all within `w` of `b`. -/
structure Inv (b : UInt32) (w : Nat) (h : SegHeap) : Prop where
  marks : h.marks = (h.segments.map Segment.sn).toFinset
  nodup : (h.segments.map Segment.sn).Nodup
  heap : BinHeap.IsHeap less h.segments
  window : ∀ s ∈ h.segments, key b s < w

theorem inv_empty (b : UInt32) (w : Nat) : Inv b w empty := by
  refine ⟨by simp [empty], by simp [empty], ?_, by simp [empty]⟩
  intro i _ hi; simp [empty] at hi

theorem Inv.has_iff {w : Nat} {h : SegHeap} (hi : Inv b w h) (sn : UInt32) :
    h.has sn = true ↔ ∃ s ∈ h.segments, s.sn = sn := by
  simp [has, hi.marks]

theorem Inv.keyed {w : Nat} {h : SegHeap} (hi : Inv b w h) (hw : w ≤ 2 ^ 31) :
    BinHeap.Keyed less (key b) h.segments :=
  keyed_of_window fun s hs => Nat.lt_of_lt_of_le (hi.window s hs) hw

/-- Distinct numbers in a window of `w` are at most `w`. -/
theorem Inv.length_le {w : Nat} {h : SegHeap} (hi : Inv b w h) : h.segments.length ≤ w := by
  have hnd : (h.segments.map (key b)).Nodup := by
    have h1 : (h.segments.map (key b)) = (h.segments.map Segment.sn).map fun x => (x - b).toNat := by
      simp [key, Function.comp_def]
    rw [h1]
    refine hi.nodup.map_on ?_
    intro x _ y _ hxy
    have := x.toNat_lt; have := y.toNat_lt; have := b.toNat_lt
    rw [UInt32.toNat_sub, UInt32.toNat_sub] at hxy
    rw [← UInt32.toNat_inj]; omega
  have hsub : (h.segments.map (key b)) ⊆ List.range w := by
    intro x hx
    obtain ⟨s, hs, rfl⟩ := List.mem_map.mp hx
    exact List.mem_range.mpr (hi.window s hs)
  simpa using (hnd.subperm hsub).length_le

theorem Inv.push {w : Nat} {h : SegHeap} (hi : Inv b w h) (hw : w ≤ 2 ^ 31) {x : Segment}
    (hx : key b x < w) (hnew : h.has x.sn = false) : Inv b w (h.push x) := by
  have hp := BinHeap.push_perm less h.segments x
  have hwin : ∀ s ∈ x :: h.segments, key b s < w := by
    intro s hs
    rcases List.mem_cons.mp hs with rfl | hs
    · exact hx
    · exact hi.window s hs
  have hk : BinHeap.Keyed less (key b) (x :: h.segments) :=
    keyed_of_window fun s hs => Nat.lt_of_lt_of_le (hwin s hs) hw
  refine ⟨?_, ?_, ?_, ?_⟩
  · have : ((BinHeap.push less h.segments x).map Segment.sn).toFinset =
        ((x :: h.segments).map Segment.sn).toFinset := List.toFinset_eq_of_perm _ _ (hp.map _)
    simp only [SegHeap.push]
    rw [this, hi.marks]; simp
  · refine ((hp.map Segment.sn).nodup_iff).mpr ?_
    simp only [List.map_cons, List.nodup_cons]
    refine ⟨fun hm => ?_, hi.nodup⟩
    have : x.sn ∈ h.marks := by rw [hi.marks]; simpa using hm
    simp [has, this] at hnew
  · refine (BinHeap.isHeap_iff (hk.perm hp)).mpr (BinHeap.push_heap hk ?_)
    exact (BinHeap.isHeap_iff (hi.keyed hw)).mp hi.heap
  · intro s hs; exact hwin s (hp.mem_iff.mp hs)

theorem Inv.pop {w : Nat} {h h' : SegHeap} {x : Segment} (hi : Inv b w h)
    (hw : w ≤ 2 ^ 31) (hpop : h.pop = some (x, h')) :
    Inv b w h' ∧ (x :: h'.segments).Perm h.segments ∧ h'.has x.sn = false ∧
      ∀ s ∈ h.segments, key b x ≤ key b s := by
  simp only [SegHeap.pop, Option.map_eq_some_iff] at hpop
  obtain ⟨⟨y, rest⟩, hp, he⟩ := hpop
  simp only [Prod.mk.injEq] at he
  obtain ⟨rfl, rfl⟩ := he
  have hperm := BinHeap.pop_perm hp
  have hnd := ((hperm.map Segment.sn).nodup_iff).mpr hi.nodup
  simp only [List.map_cons, List.nodup_cons] at hnd
  have hmem : ∀ s ∈ rest, s ∈ h.segments := fun s hs => hperm.mem_iff.mp (List.mem_cons_of_mem _ hs)
  have hheap := (BinHeap.isHeap_iff (hi.keyed hw)).mp hi.heap
  refine ⟨⟨?_, hnd.2, ?_, fun s hs => hi.window s (hmem s hs)⟩, hperm, ?_, BinHeap.pop_min hheap hp⟩
  · have : (h.segments.map Segment.sn).toFinset = ((y :: rest).map Segment.sn).toFinset :=
      (List.toFinset_eq_of_perm _ _ (hperm.map _)).symm
    simp only [hi.marks, this, List.map_cons, List.toFinset_cons]
    rw [Finset.erase_insert]
    simpa using hnd.1
  · exact (BinHeap.isHeap_iff ((hi.keyed hw).subset hmem)).mpr
      (BinHeap.pop_heap (hi.keyed hw) hheap hp)
  · simp [has]

theorem pop_none {h : SegHeap} : h.pop = none ↔ h.segments = [] := by
  constructor
  · intro hp
    by_contra hne
    have := BinHeap.pop_isSome less hne
    simp only [SegHeap.pop, Option.map_eq_none_iff] at hp
    rw [hp] at this; cases this
  · intro he
    simp [SegHeap.pop, he, BinHeap.pop_nil]

end SegHeap
end KcpGo.L2
