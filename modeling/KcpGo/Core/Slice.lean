import KcpGo.Core.Bytes
import KcpGo.Core.GoRun

/-!
# Byte slices over a reused buffer

A slice that starts at the first byte of its buffer: the buffer up to the
capacity, and the length. Bytes past the length are what earlier uses left
there. Slicing past the capacity panics.

* `reslice_ok`, `writeAt_ok`, `clearTail_ok`: when each operation returns, and
  what is read back.
-/
namespace KcpGo

structure Slice where
  mem : Bytes
  len : Nat
  le : len ≤ mem.length
  deriving DecidableEq, Repr

namespace Slice

/-- `make([]byte, n)`. -/
def make (n : Nat) : Slice where
  mem := List.replicate n 0
  len := n
  le := by simp

def cap (s : Slice) : Nat := s.mem.length

def bytes (s : Slice) : Bytes := s.mem.take s.len

/-- `s[:n]`. -/
def reslice (s : Slice) (n : Nat) : Go Slice :=
  if h : n ≤ s.mem.length then .ok ⟨s.mem, n, h⟩ else .error .sliceBounds

/-- The bytes of `s[a:b]`. -/
def range (s : Slice) (a b : Nat) : Go Bytes :=
  if a ≤ b ∧ b ≤ s.cap then .ok ((s.mem.take b).drop a) else .error .sliceBounds

/-- `l` with `src` written over it from `off` on. -/
def overwrite (l : Bytes) (off : Nat) (src : Bytes) : Bytes := l.take off ++ src ++ l.drop (off + src.length)

theorem overwrite_length {l src : Bytes} {off : Nat} (h : off + src.length ≤ l.length) :
    (overwrite l off src).length = l.length := by
  simp only [overwrite, List.length_append, List.length_take, List.length_drop]
  omega

/-- `copy(s[off:], src)` for a source that fits. -/
def writeAt (s : Slice) (off : Nat) (src : Bytes) : Go Slice :=
  if h : off + src.length ≤ s.len then
    .ok ⟨overwrite s.mem off src, s.len, by rw [overwrite_length (Nat.le_trans h s.le)]; exact s.le⟩
  else .error .sliceBounds

/-- Bytes written to `s[off:]` up to the capacity, past the length too. -/
def fill (s : Slice) (off : Nat) (src : Bytes) : Go Slice :=
  if h : off + src.length ≤ s.mem.length then
    .ok ⟨overwrite s.mem off src, s.len, by rw [overwrite_length h]; exact s.le⟩
  else .error .sliceBounds

/-- `clear(s[len(s):n])`. -/
def clearTail (s : Slice) (n : Nat) : Go Slice :=
  if h : s.len ≤ n ∧ n ≤ s.mem.length then
    .ok ⟨overwrite s.mem s.len (List.replicate (n - s.len) 0), s.len, by
      rw [overwrite_length (by rw [List.length_replicate]; omega)]
      exact s.le⟩
  else .error .sliceBounds

@[simp] theorem bytes_length (s : Slice) : s.bytes.length = s.len := by
  have := s.le
  simp [bytes, this]

theorem make_cap (n : Nat) : (make n).cap = n := by simp [make, cap]

theorem reslice_ok {s : Slice} {n : Nat} (h : n ≤ s.cap) :
    ∃ s', s.reslice n = .ok s' ∧ s'.len = n ∧ s'.cap = s.cap ∧ s'.mem = s.mem :=
  ⟨_, dif_pos h, rfl, rfl, rfl⟩

theorem writeAt_ok {s : Slice} {off : Nat} {src : Bytes} (h : off + src.length = s.len) :
    ∃ s', s.writeAt off src = .ok s' ∧ s'.len = s.len ∧ s'.cap = s.cap ∧ s'.bytes.drop off = src := by
  have hle : off + src.length ≤ s.mem.length := by
    have := s.le
    omega
  refine ⟨_, dif_pos (Nat.le_of_eq h), rfl, overwrite_length hle, ?_⟩
  have hoff : (s.mem.take off).length = off := List.length_take_of_le (by omega)
  have htake : (overwrite s.mem off src).take s.len = s.mem.take off ++ src :=
    List.take_left' (by rw [List.length_append, hoff, h])
  show List.drop off (List.take s.len (overwrite s.mem off src)) = src
  rw [htake, List.drop_left' hoff]

/-- Clearing the tail leaves the bytes followed by zeros. -/
theorem clearTail_ok {s : Slice} {n : Nat} (h : s.len ≤ n) (hn : n ≤ s.cap) :
    ∃ s', s.clearTail n = .ok s' ∧ s'.len = s.len ∧ s'.cap = s.cap ∧
      ∀ a ≤ s.len, s'.range a n = .ok (s.bytes.drop a ++ List.replicate (n - s.len) 0) := by
  have hrep : s.len + (List.replicate (n - s.len) (0 : UInt8)).length ≤ s.mem.length := by
    rw [List.length_replicate]
    unfold cap at hn
    omega
  refine ⟨_, dif_pos ⟨h, hn⟩, rfl, overwrite_length hrep, fun a ha => ?_⟩
  have hcap : n ≤ (overwrite s.mem s.len (List.replicate (n - s.len) 0)).length := by
    rw [overwrite_length hrep]
    exact hn
  refine (if_pos ⟨Nat.le_trans ha h, hcap⟩).trans (congrArg Except.ok ?_)
  have hlen : (s.mem.take s.len ++ List.replicate (n - s.len) 0).length = n := by
    have := s.le
    simp only [List.length_append, List.length_take, List.length_replicate]
    omega
  have htake : (overwrite s.mem s.len (List.replicate (n - s.len) 0)).take n =
      s.mem.take s.len ++ List.replicate (n - s.len) 0 := by
    rw [overwrite]
    exact List.take_left' hlen
  show List.drop a (List.take n (overwrite s.mem s.len (List.replicate (n - s.len) 0))) = _
  rw [htake, List.drop_append_of_le_length (by rw [List.length_take_of_le s.le]; exact ha)]
  rfl

/-- A header over the bytes in front of what was filled in. -/
theorem fill_write_ok {s : Slice} {h n : Nat} {head body : Bytes} (hh : h + head.length ≤ s.len)
    (hn : h + head.length + body.length = n) (hc : n ≤ s.cap) :
    ∃ s₁ s₂ s₃ pre, s.fill (h + head.length) body = .ok s₁ ∧ s₁.writeAt h head = .ok s₂ ∧ s₂.reslice n = .ok s₃ ∧
      s₃.len = n ∧ s₃.cap = s.cap ∧ pre.length = h ∧ s₃.bytes = pre ++ head ++ body := by
  have hcap : n ≤ s.mem.length := hc
  have h1 : h + head.length + body.length ≤ s.mem.length := by omega
  have hlen₁ := overwrite_length h1
  have h2 : h + head.length ≤ (overwrite s.mem (h + head.length) body).length := by omega
  have hlen₂ := overwrite_length h2
  have hle : n ≤ (overwrite (overwrite s.mem (h + head.length) body) h head).length := by omega
  refine ⟨_, _, _, s.mem.take h, dif_pos h1, dif_pos hh, dif_pos hle, rfl, hlen₂.trans hlen₁,
    List.length_take_of_le (by omega), ?_⟩
  have hpre : (s.mem.take (h + head.length)).length = h + head.length := List.length_take_of_le (by omega)
  have hdrop : (overwrite s.mem (h + head.length) body).drop (h + head.length) =
      body ++ s.mem.drop (h + head.length + body.length) := by
    rw [overwrite, List.append_assoc]
    exact List.drop_left' hpre
  have htake : (overwrite s.mem (h + head.length) body).take h = s.mem.take h := by
    rw [overwrite, List.append_assoc, List.take_append_of_le_length (by omega), List.take_take]
    congr 1
    omega
  show (overwrite (overwrite s.mem (h + head.length) body) h head).take n = s.mem.take h ++ head ++ body
  rw [overwrite, hdrop, htake, ← List.append_assoc]
  refine List.take_left' ?_
  rw [List.length_append, List.length_append, List.length_take_of_le (by omega)]
  exact hn

end Slice
end KcpGo
