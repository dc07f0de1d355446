import KcpGo.Core.Bytes
import KcpGo.Core.GoRun

/-!
# Systematic erasure codes over shards of bytes

A codec extends `d` data shards of one length by `p` parity shards and fills
in missing data shards; a missing shard is the empty one. `MDS` is what such
a codec promises: any `d` shards of a code word give back the data. Calls
return `none` for the library's error.

* `xorPair_mds`: two data shards and their exclusive or are such a code.
-/
namespace KcpGo

structure Codec where
  /-- All shards, parity last; the result has the parity shards overwritten. -/
  encode : List Bytes → Go (Option (List Bytes))
  /-- The shards with the missing data shards filled in. -/
  reconstructData : List Bytes → Go (Option (List Bytes))

namespace Codec

def Uniform (n : Nat) (l : List Bytes) : Prop := ∀ s ∈ l, s.length = n

/-- `got` has each shard of `word` or the empty shard in its place. -/
structure Erasure (word got : List Bytes) : Prop where
  length : got.length = word.length
  get : ∀ i : Nat, got[i]? = word[i]? ∨ got[i]? = some []

def present (got : List Bytes) : Nat := got.countP fun s => !s.isEmpty

/-- Any `d` shards of the code word `ds ++ parity ds` give back `ds`. -/
structure MDS (c : Codec) (d p : Nat) (parity : List Bytes → List Bytes) : Prop where
  length : ∀ ds, ds.length = d → (parity ds).length = p
  uniform : ∀ n ds, ds.length = d → Uniform n ds → Uniform n (parity ds)
  encode : ∀ n ds ps, 0 < n → ds.length = d → ps.length = p → Uniform n ds → Uniform n ps →
    c.encode (ds ++ ps) = .ok (some (ds ++ parity ds))
  reconstruct : ∀ n ds got, 0 < n → ds.length = d → Uniform n ds → Erasure (ds ++ parity ds) got →
    d ≤ present got → ∃ out, c.reconstructData got = .ok (some out) ∧ out.length = d + p ∧ out.take d = ds

/-- A panic-free `ReconstructData`: it returns whenever at least `d` of the
`d + p` shards are there and those are of one length. -/
def Total (c : Codec) (d p : Nat) : Prop :=
  ∀ n got, got.length = d + p → (∀ s ∈ got, s = [] ∨ s.length = n) → d ≤ present got →
    ∃ r, c.reconstructData got = .ok r ∧ ∀ out, r = some out → out.length = d + p

/-- What a codec does to lengths: the shards come back from `encode` as long
as they went in, and none that is filled in is longer than the others. -/
structure Sized (c : Codec) (d p : Nat) : Prop where
  encode : ∀ n l, 0 < n → l.length = d + p → Uniform n l →
    ∃ r, c.encode l = .ok r ∧ ∀ out, r = some out → out.length = d + p ∧ Uniform n out
  reconstruct : ∀ n got out, got.length = d + p → (∀ s ∈ got, s = [] ∨ s.length = n) → d ≤ present got →
    c.reconstructData got = .ok (some out) → ∀ s ∈ out, s.length ≤ n

/-! ## Repetition -/

/-- One data shard; the parity shards are copies of it. -/
def repetition : Codec where
  encode
    | [] => .ok none
    | s :: rest => .ok (some (s :: rest.map fun _ => s))
  reconstructData got :=
    match got.find? fun s => !s.isEmpty with
    | none => .ok none
    | some s => .ok (some (s :: got.tail))

/-! ## Exclusive or of two -/

/-- Two data shards; the parity shard is their exclusive or. -/
def xorPair : Codec where
  encode
    | [a, b, _] => .ok (some [a, b, xorBytes a b])
    | _ => .ok none
  reconstructData
    | [a, b, c] =>
      if a = [] then .ok (some [xorBytes b c, b, c])
      else if b = [] then .ok (some [a, xorBytes a c, c])
      else .ok (some [a, b, c])
    | _ => .ok none

def xorParity : List Bytes → List Bytes
  | [a, b] => [xorBytes a b]
  | _ => [[]]

theorem xorPair_mds : xorPair.MDS 2 1 xorParity where
  length ds h := by
    obtain ⟨a, b, rfl⟩ := List.length_eq_two.mp h
    rfl
  uniform n ds h hu s hs := by
    obtain ⟨a, b, rfl⟩ := List.length_eq_two.mp h
    obtain rfl : s = xorBytes a b := List.mem_singleton.mp hs
    rw [xorBytes_length, hu a (by simp), hu b (by simp), Nat.min_self]
  encode n ds ps _ hd hp _ _ := by
    obtain ⟨a, b, rfl⟩ := List.length_eq_two.mp hd
    obtain ⟨c, rfl⟩ := List.length_eq_one_iff.mp hp
    rfl
  reconstruct n ds got hn hd hu he hpres := by
    obtain ⟨a, b, rfl⟩ := List.length_eq_two.mp hd
    obtain ⟨x, y, w, rfl⟩ := List.length_eq_three.mp he.length
    have ha : a.length = n := hu a (by simp)
    have hb : b.length = n := hu b (by simp)
    have hne : a ≠ [] ∧ b ≠ [] := by
      constructor <;> rintro rfl <;> simp at ha hb <;> omega
    have hx : x = a ∨ x = [] := by simpa [xorParity] using he.get 0
    have hy : y = b ∨ y = [] := by simpa [xorParity] using he.get 1
    have hw : w = xorBytes a b ∨ w = [] := by simpa [xorParity] using he.get 2
    -- with two shards there, an empty data shard leaves both others
    rcases hx with rfl | rfl
    · rcases hy with rfl | rfl
      · exact ⟨[x, y, w], by simp [xorPair, hne.1, hne.2], rfl, rfl⟩
      · rcases hw with rfl | rfl
        · refine ⟨[x, xorBytes x (xorBytes x b), xorBytes x b], by simp [xorPair, hne.1], rfl, ?_⟩
          rw [xorBytes_cancel (by omega)]
          rfl
        · simp [present, hne.1] at hpres
    · rcases hy with rfl | rfl
      · rcases hw with rfl | rfl
        · refine ⟨[xorBytes y (xorBytes a y), y, xorBytes a y], by simp [xorPair], rfl, ?_⟩
          rw [xorBytes_comm a y, xorBytes_cancel (by omega)]
          rfl
        · simp [present, hne.2] at hpres
      · rcases hw with rfl | rfl <;> simp [present] at hpres
        split at hpres <;> omega

theorem xorPair_sized (d p : Nat) : xorPair.Sized d p where
  encode n l _ hl hu := by
    unfold xorPair
    dsimp only
    split
    · rename_i a b c
      refine ⟨_, rfl, ?_⟩
      rintro out ⟨⟩
      refine ⟨hl, fun s hs => ?_⟩
      rw [List.mem_cons, List.mem_cons, List.mem_singleton] at hs
      have ha := hu a (by simp)
      have hb := hu b (by simp)
      rcases hs with rfl | rfl | rfl
      · exact ha
      · exact hb
      · rw [xorBytes_length, ha, hb, Nat.min_self]
    · exact ⟨_, rfl, by rintro out ⟨⟩⟩
  reconstruct n got out hl hu hd h := by
    clear hd
    have hle : ∀ s ∈ got, s.length ≤ n := by
      intro s hs
      rcases hu s hs with rfl | he
      · exact Nat.zero_le _
      · exact Nat.le_of_eq he
    have hxor : ∀ a b : Bytes, a.length ≤ n → (xorBytes a b).length ≤ n := by
      intro a b ha
      rw [xorBytes_length]
      omega
    unfold xorPair at h
    dsimp only at h
    split at h
    · rename_i a b c
      have ha := hle a (by simp)
      have hb := hle b (by simp)
      have hc := hle c (by simp)
      split at h
      · cases h
        simpa [hb, hc] using hxor b c hb
      · split at h
        · cases h
          simpa [ha, hc] using hxor a c ha
        · cases h
          simp [ha, hb, hc]
    · cases h

end Codec
end KcpGo
