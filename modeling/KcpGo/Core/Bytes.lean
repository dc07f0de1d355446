import Mathlib.Algebra.Group.Nat.Defs

/-!
# Byte strings and little-endian integers

`put n v` is `v` in `n` little-endian bytes (the high part is dropped),
`get` the value of a little-endian byte string.
-/
namespace KcpGo

abbrev Bytes := List UInt8

namespace LE

def put : Nat → Nat → Bytes
  | 0, _ => []
  | n + 1, v => UInt8.ofNat v :: put n (v / 256)

def get : Bytes → Nat
  | [] => 0
  | b :: bs => b.toNat + 256 * get bs

@[simp] theorem put_length : ∀ n v, (put n v).length = n
  | 0, _ => rfl
  | n + 1, v => by simp [put, put_length n]

theorem get_put : ∀ n v, get (put n v) = v % 256 ^ n
  | 0, v => by simp [put, get, Nat.mod_one]
  | n + 1, v => by
    have low : (UInt8.ofNat v).toNat = v % 256 := UInt8.toNat_ofNat'
    rw [put, get, get_put n, low, Nat.pow_succ, Nat.mul_comm _ 256, Nat.mod_mul]

/-- `binary.LittleEndian.Uint16(b[off:])`. -/
def u16 (b : Bytes) (off : Nat) : UInt16 := UInt16.ofNat (get ((b.drop off).take 2))

/-- `binary.LittleEndian.Uint32(b[off:])`. -/
def u32 (b : Bytes) (off : Nat) : UInt32 := UInt32.ofNat (get ((b.drop off).take 4))

theorem u16_put (pre rest : Bytes) (v : UInt16) (off : Nat) (h : pre.length = off) :
    u16 (pre ++ put 2 v.toNat ++ rest) off = v := by
  subst h
  have hget : get (put 2 v.toNat) = v.toNat := by
    rw [get_put]; have := v.toNat_lt; omega
  rw [u16, List.append_assoc, List.drop_left, List.take_left' (put_length _ _), hget]
  exact UInt16.ofNat_toNat

theorem u32_put (pre rest : Bytes) (v : UInt32) (off : Nat) (h : pre.length = off) :
    u32 (pre ++ put 4 v.toNat ++ rest) off = v := by
  subst h
  have hget : get (put 4 v.toNat) = v.toNat := by
    rw [get_put]; have := v.toNat_lt; omega
  rw [u32, List.append_assoc, List.drop_left, List.take_left' (put_length _ _), hget]
  exact UInt32.ofNat_toNat

end LE

/-! ## Exclusive or -/

/-- `subtle.XORBytes`: as long as the shorter operand. -/
def xorBytes (a b : Bytes) : Bytes := List.zipWith (· ^^^ ·) a b

theorem xorBytes_length (a b : Bytes) : (xorBytes a b).length = min a.length b.length := List.length_zipWith

theorem xorBytes_comm (a b : Bytes) : xorBytes a b = xorBytes b a := List.zipWith_comm_of_comm UInt8.xor_comm

/-- Only the bytes beside the second operand matter. -/
theorem xorBytes_take : ∀ a b : Bytes, xorBytes (a.take b.length) b = xorBytes a b
  | [], _ => by simp
  | _ :: _, [] => rfl
  | x :: a, y :: b => congrArg (List.cons (x ^^^ y)) (xorBytes_take a b)

/-- The second time the first operand cancels. -/
theorem xorBytes_cancel : ∀ {a b : Bytes}, b.length ≤ a.length → xorBytes a (xorBytes a b) = b
  | _, [], _ => by simp [xorBytes]
  | [], _ :: _, h => absurd h (by simp)
  | x :: a, y :: b, h => by
    have hx : x ^^^ (x ^^^ y) = y := by rw [← UInt8.xor_assoc, UInt8.xor_self, UInt8.zero_xor]
    show (x ^^^ (x ^^^ y)) :: xorBytes a (xorBytes a b) = y :: b
    rw [hx, xorBytes_cancel (Nat.le_of_succ_le_succ h)]

end KcpGo
