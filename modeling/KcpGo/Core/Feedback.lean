import KcpGo.Core.Bytes
import Mathlib.Logic.Function.Iterate

/-!
# Cipher feedback

Blocks of `n` bytes are masked with a register; the register is then the
image of the ciphertext block under `E`. What is left after the last whole
block is masked with a part of the register.

* `decrypt_encrypt`: reading back needs `E` only as a function.
* `iterate_encStep`, `iterate_decStep`: the loops that process one block a
  round compute `encrypt` and `decrypt`, in whatever portions they run.
-/
namespace KcpGo.Feedback

section
variable (n : Nat) (E : Bytes → Bytes)

/-- `k` whole blocks and the rest, with the register `tbl`. -/
def encrypt : Nat → Bytes → Bytes → Bytes
  | 0, tbl, src => xorBytes src tbl
  | k + 1, tbl, src =>
    xorBytes (src.take n) tbl ++ encrypt k (E (xorBytes (src.take n) tbl)) (src.drop n)

def decrypt : Nat → Bytes → Bytes → Bytes
  | 0, tbl, src => xorBytes src tbl
  | k + 1, tbl, src => xorBytes (src.take n) tbl ++ decrypt k (E (src.take n)) (src.drop n)

/-- A loop over the blocks: what is written, what is left, the register. -/
structure Loop where
  done : Bytes
  rest : Bytes
  tbl : Bytes

def encStep (st : Loop) : Loop :=
  ⟨st.done ++ xorBytes (st.rest.take n) st.tbl, st.rest.drop n, E (xorBytes (st.rest.take n) st.tbl)⟩

def decStep (st : Loop) : Loop :=
  ⟨st.done ++ xorBytes (st.rest.take n) st.tbl, st.rest.drop n, E (st.rest.take n)⟩

/-- The partial block at the end. -/
def Loop.finish (st : Loop) : Bytes := st.done ++ xorBytes st.rest st.tbl

end

section
variable {n : Nat} {E : Bytes → Bytes}

theorem iterate_encStep : ∀ (k : Nat) (st : Loop),
    ((encStep n E)^[k] st).finish = st.done ++ encrypt n E k st.tbl st.rest
  | 0, _ => rfl
  | k + 1, st => by
    rw [Function.iterate_succ_apply, iterate_encStep k, encrypt, ← List.append_assoc]
    rfl

theorem iterate_decStep : ∀ (k : Nat) (st : Loop),
    ((decStep n E)^[k] st).finish = st.done ++ decrypt n E k st.tbl st.rest
  | 0, _ => rfl
  | k + 1, st => by
    rw [Function.iterate_succ_apply, iterate_decStep k, decrypt, ← List.append_assoc]
    rfl

theorem encrypt_length (hE : ∀ b, (E b).length = n) : ∀ (k : Nat) {tbl src : Bytes}, tbl.length = n →
    k * n ≤ src.length → src.length < (k + 1) * n → (encrypt n E k tbl src).length = src.length
  | 0, tbl, src, ht, _, hlt => by
    rw [encrypt, xorBytes_length, ht]
    omega
  | k + 1, tbl, src, ht, hle, hlt => by
    rw [Nat.succ_mul] at hle hlt
    rw [encrypt, List.length_append, encrypt_length hE k (hE _) (by rw [List.length_drop]; omega)
      (by rw [List.length_drop]; omega), xorBytes_length, ht, List.length_take, List.length_drop]
    omega

theorem decrypt_length (hE : ∀ b, (E b).length = n) : ∀ (k : Nat) {tbl src : Bytes}, tbl.length = n →
    k * n ≤ src.length → src.length < (k + 1) * n → (decrypt n E k tbl src).length = src.length
  | 0, tbl, src, ht, _, hlt => by
    rw [decrypt, xorBytes_length, ht]
    omega
  | k + 1, tbl, src, ht, hle, hlt => by
    rw [Nat.succ_mul] at hle hlt
    rw [decrypt, List.length_append, decrypt_length hE k (hE _) (by rw [List.length_drop]; omega)
      (by rw [List.length_drop]; omega), xorBytes_length, ht, List.length_take, List.length_drop]
    omega

/-- A mask put on twice is off again. -/
theorem mask_mask {src tbl : Bytes} (h : src.length ≤ tbl.length) : xorBytes (xorBytes src tbl) tbl = src := by
  rw [xorBytes_comm, xorBytes_comm src, xorBytes_cancel h]

/-- **The blocks come back.** The register of the reader is that of the
writer, as both are images of the ciphertext. -/
theorem decrypt_encrypt (hE : ∀ b, (E b).length = n) : ∀ (k : Nat) {tbl src : Bytes}, tbl.length = n →
    k * n ≤ src.length → src.length < (k + 1) * n → decrypt n E k tbl (encrypt n E k tbl src) = src
  | 0, tbl, src, ht, _, hlt => mask_mask (by omega)
  | k + 1, tbl, src, ht, hle, hlt => by
    rw [Nat.succ_mul] at hle hlt
    have hblock : (xorBytes (src.take n) tbl).length = n := by
      rw [xorBytes_length, ht, List.length_take]
      omega
    have hrest : decrypt n E k _ (encrypt n E k _ (src.drop n)) = src.drop n :=
      decrypt_encrypt hE k (hE (xorBytes (src.take n) tbl)) (by rw [List.length_drop]; omega)
        (by rw [List.length_drop]; omega)
    rw [encrypt, decrypt, List.take_left' hblock, List.drop_left' hblock, hrest,
      mask_mask (by rw [List.length_take]; omega), List.take_append_drop]

/-- **And the other way round.** -/
theorem encrypt_decrypt (hE : ∀ b, (E b).length = n) : ∀ (k : Nat) {tbl src : Bytes}, tbl.length = n →
    k * n ≤ src.length → src.length < (k + 1) * n → encrypt n E k tbl (decrypt n E k tbl src) = src
  | 0, tbl, src, ht, _, hlt => mask_mask (by omega)
  | k + 1, tbl, src, ht, hle, hlt => by
    rw [Nat.succ_mul] at hle hlt
    have hblock : (xorBytes (src.take n) tbl).length = n := by
      rw [xorBytes_length, ht, List.length_take]
      omega
    have hrest : encrypt n E k _ (decrypt n E k _ (src.drop n)) = src.drop n :=
      encrypt_decrypt hE k (hE (src.take n)) (by rw [List.length_drop]; omega) (by rw [List.length_drop]; omega)
    rw [decrypt, encrypt, List.take_left' hblock, List.drop_left' hblock, mask_mask (by rw [List.length_take]; omega),
      hrest,
      List.take_append_drop]

end

/-! ## Block by block -/

/-- The `i`-th block of `n` bytes, short at the end. -/
def blockAt (n i : Nat) (b : Bytes) : Bytes := (b.drop (i * n)).take n

theorem blockAt_zero (n : Nat) (b : Bytes) : blockAt n 0 b = b.take n := by simp [blockAt]

theorem blockAt_succ {n : Nat} {x : Bytes} (hx : x.length = n) (i : Nat) (b : Bytes) :
    blockAt n (i + 1) (x ++ b) = blockAt n i b := by
  unfold blockAt
  rw [Nat.succ_mul, Nat.add_comm, ← List.drop_drop, List.drop_left' hx]

/-- `out` is `src` block by block under the images of the blocks before, the
first under `tbl`, of the ciphertext `ct`. -/
structure Chained (n : Nat) (E : Bytes → Bytes) (tbl src out ct : Bytes) : Prop where
  length : out.length = src.length
  block : ∀ i, blockAt n i out = xorBytes (blockAt n i src) (if i = 0 then tbl else E (blockAt n (i - 1) ct))

section
variable {n : Nat} {E : Bytes → Bytes}

theorem blockAt_short {b : Bytes} (hn : b.length < n) (i : Nat) : blockAt n (i + 1) b = [] := by
  unfold blockAt
  rw [List.drop_eq_nil_of_le (by rw [Nat.succ_mul]; omega), List.take_nil]

/-- Less than a block. -/
theorem chained_rest {tbl src ct : Bytes} (ht : tbl.length = n) (hlt : src.length < n) :
    Chained n E tbl src (xorBytes src tbl) ct where
  length := by
    rw [xorBytes_length, ht]
    omega
  block i := by
    have hlen : (xorBytes src tbl).length < n := by
      rw [xorBytes_length]
      omega
    cases i with
    | zero =>
      rw [blockAt_zero, blockAt_zero, if_pos rfl, List.take_of_length_le (Nat.le_of_lt hlen),
        List.take_of_length_le (Nat.le_of_lt hlt)]
    | succ i =>
      rw [blockAt_short hlen, blockAt_short hlt]
      rfl

/-- One block in front. -/
theorem Chained.cons {tbl src out ct x : Bytes} (hx : x.length = n) (ht : tbl.length = n) (hlen : n ≤ src.length)
    (h : Chained n E (E x) (src.drop n) out ct) : Chained n E tbl src (xorBytes (src.take n) tbl ++ out) (x ++ ct) := by
  have hblock : (xorBytes (src.take n) tbl).length = n := by
    rw [xorBytes_length, ht, List.length_take]
    omega
  have hsrc : src = src.take n ++ src.drop n := (List.take_append_drop n src).symm
  refine ⟨?_, fun i => ?_⟩
  · rw [List.length_append, hblock, h.length, List.length_drop]
    omega
  · cases i with
    | zero => rw [blockAt_zero, blockAt_zero, if_pos rfl, List.take_left' hblock]
    | succ i =>
      have htake : (src.take n).length = n := by
        rw [List.length_take]
        omega
      rw [blockAt_succ hblock, hsrc, blockAt_succ htake, h.block i, if_neg (Nat.succ_ne_zero i), Nat.add_sub_cancel]
      cases i with
      | zero => rw [if_pos rfl, blockAt_zero, blockAt_zero, List.take_left' hx]
      | succ i => rw [if_neg (Nat.succ_ne_zero i), blockAt_succ hx, Nat.add_sub_cancel]

theorem encrypt_chained (hE : ∀ b, (E b).length = n) :
    ∀ (k : Nat) {tbl src : Bytes}, tbl.length = n → k * n ≤ src.length →
    src.length < (k + 1) * n → Chained n E tbl src (encrypt n E k tbl src) (encrypt n E k tbl src)
  | 0, tbl, src, ht, _, hlt => chained_rest ht (by omega)
  | k + 1, tbl, src, ht, hle, hlt => by
    rw [Nat.succ_mul] at hle hlt
    have hblock : (xorBytes (src.take n) tbl).length = n := by
      rw [xorBytes_length, ht, List.length_take]
      omega
    rw [encrypt]
    exact (encrypt_chained hE k (hE _) (by rw [List.length_drop]; omega) (by rw [List.length_drop]; omega)).cons
      hblock ht (by omega)

theorem decrypt_chained (hE : ∀ b, (E b).length = n) :
    ∀ (k : Nat) {tbl src : Bytes}, tbl.length = n → k * n ≤ src.length →
    src.length < (k + 1) * n → Chained n E tbl src (decrypt n E k tbl src) src
  | 0, tbl, src, ht, _, hlt => chained_rest ht (by omega)
  | k + 1, tbl, src, ht, hle, hlt => by
    rw [Nat.succ_mul] at hle hlt
    have htake : (src.take n).length = n := by
      rw [List.length_take]
      omega
    have hrest : Chained n E (E (src.take n)) (src.drop n) (decrypt n E k (E (src.take n)) (src.drop n)) (src.drop n) :=
      decrypt_chained hE k (hE _) (by rw [List.length_drop]; omega) (by rw [List.length_drop]; omega)
    have hcons := hrest.cons htake ht (by omega)
    rw [List.take_append_drop] at hcons
    exact hcons

end

end KcpGo.Feedback
