import KcpGo.Core.Feedback
import KcpGo.Core.GoRun

/-!
# Packet encryption (`crypt.go`)

All callers encrypt and decrypt in place, so a call is a function of the
bytes. Code from outside the repository is a parameter: a block cipher is a
function on blocks, Salsa20 a key stream, the table of the XOR cipher some
bytes, an AEAD its two operations.

The CFB loops process eight blocks a round and then the blocks left over; the
decryption alternates between two registers.

* `encryptN_eq`, `decryptN_eq`: the unrolled loops are cipher feedback.
* `BlockCrypt.decrypt_encrypt`: every cipher that is no AEAD reads back what
  it wrote, of the same length (`encrypt_length`).
-/
namespace KcpGo.L1

open KcpGo.Feedback

/-! ## Parameters -/

/-- A `cipher.Block` of one of the block sizes `newBlockCrypt` is used with
(src/crypt.go:198-267). `encrypt` reads the first `size` bytes. -/
structure BlockCipher where
  size : Nat
  encrypt : Bytes → Bytes
  encrypt_length : ∀ b, (encrypt b).length = size
  supported : size = 8 ∨ size = 16

/-- The key stream of `salsa20.XORKeyStream` for a nonce, cut to a length. -/
structure KeyStream where
  stream : Bytes → Nat → Bytes
  stream_length : ∀ nonce n, (stream nonce n).length = n

/-- A `cipher.AEAD`, without additional data. A nonce and a ciphertext are
held in memory together, so the sum of their sizes is an `int`. -/
structure Aead where
  nonceSize : Nat
  overhead : Nat
  sealing : Bytes → Bytes → Bytes
  opening : Bytes → Bytes → Option Bytes
  small : nonceSize + overhead < 2 ^ 62

/-- What `cipher.AEAD` documents. -/
structure Aead.Lawful (a : Aead) : Prop where
  /-- `Overhead` bounds the growth of a plaintext. -/
  grows : ∀ nonce p, (a.sealing nonce p).length ≤ p.length + a.overhead
  /-- A ciphertext is no shorter than its plaintext. -/
  keeps : ∀ nonce p, p.length ≤ (a.sealing nonce p).length
  /-- A plaintext is no longer than its ciphertext. -/
  shrinks : ∀ nonce c p, a.opening nonce c = some p → p.length ≤ c.length

/-- `Open` inverts `Seal`, and a ciphertext has room for the tag. -/
structure Aead.Inverts (a : Aead) : Prop where
  opens : ∀ nonce p, nonce.length = a.nonceSize → a.opening nonce (a.sealing nonce p) = some p
  tagged : ∀ nonce p, a.overhead ≤ (a.sealing nonce p).length

/-! ## Checksum -/

def crcBit (c : UInt32) : UInt32 := if c &&& 1 = 1 then (c >>> 1) ^^^ 0xedb88320 else c >>> 1

/-- `crc32.ChecksumIEEE`. -/
def crc32 (b : Bytes) : UInt32 :=
  b.foldl (fun c x => crcBit^[8] (c ^^^ x.toUInt32)) 0xffffffff ^^^ 0xffffffff

-- the check value of CRC-32/ISO-HDLC, the digits 1 to 9
example : crc32 [49, 50, 51, 52, 53, 54, 55, 56, 57] = 0xcbf43926 := by decide +kernel

/-! ## Cipher feedback -/

/-- mirrors src/crypt.go:51 -/
def initialVector : Bytes := [167, 115, 79, 156, 18, 172, 27, 1, 164, 21, 242, 193, 252, 120, 230, 107]

/-- `sh` is the shift of the block count, 3 or 4. The round of eight blocks
is written out in the source.
mirrors src/crypt.go:347-424 (`encrypt8`), 428-504 (`encrypt16`) -/
def encryptN (block : BlockCipher) (sh : Nat) (src : Bytes) : Bytes :=
  let n := src.length >>> sh
  let step := encStep (2 ^ sh) block.encrypt
  (step^[n &&& 7] ((step^[8])^[n >>> 3] ⟨[], src, block.encrypt initialVector⟩)).finish

/-- The two registers of the decryption. -/
structure Regs where
  done : Bytes
  rest : Bytes
  tbl : Bytes
  next : Bytes

/-- Two blocks of the unrolled loop.
mirrors src/crypt.go:535-539, 625-629 -/
def decPair (w : Nat) (E : Bytes → Bytes) (st : Regs) : Regs :=
  let next := E (st.rest.take w)
  let rest := st.rest.drop w
  ⟨st.done ++ xorBytes (st.rest.take w) st.tbl ++ xorBytes (rest.take w) next, rest.drop w, E (rest.take w), next⟩

/-- A block after the loop; the registers change places.
mirrors src/crypt.go:563-567, 653-657 -/
def decSwap (w : Nat) (E : Bytes → Bytes) (st : Regs) : Regs :=
  ⟨st.done ++ xorBytes (st.rest.take w) st.tbl, st.rest.drop w, E (st.rest.take w), st.tbl⟩

/-- mirrors src/crypt.go:521-607 (`decrypt8`), 611-697 (`decrypt16`) -/
def decryptN (block : BlockCipher) (sh : Nat) (src : Bytes) : Bytes :=
  let n := src.length >>> sh
  let st := (decSwap (2 ^ sh) block.encrypt)^[n &&& 7]
    (((decPair (2 ^ sh) block.encrypt)^[4])^[n >>> 3] ⟨[], src, block.encrypt initialVector, []⟩)
  st.done ++ xorBytes st.rest st.tbl

def encrypt8 (block : BlockCipher) (src : Bytes) : Bytes := encryptN block 3 src
def encrypt16 (block : BlockCipher) (src : Bytes) : Bytes := encryptN block 4 src
def decrypt8 (block : BlockCipher) (src : Bytes) : Bytes := decryptN block 3 src
def decrypt16 (block : BlockCipher) (src : Bytes) : Bytes := decryptN block 4 src

/-- mirrors src/crypt.go:334-343 (`encrypt`) -/
def encrypt (block : BlockCipher) (src : Bytes) : Go Bytes :=
  if block.size = 8 then .ok (encrypt8 block src)
  else if block.size = 16 then .ok (encrypt16 block src)
  else .error (.explicit "unsupported cipher block size")

/-- mirrors src/crypt.go:507-516 (`decrypt`) -/
def decrypt (block : BlockCipher) (src : Bytes) : Go Bytes :=
  if block.size = 8 then .ok (decrypt8 block src)
  else if block.size = 16 then .ok (decrypt16 block src)
  else .error (.explicit "unsupported cipher block size")

/-- Eight at a time and then the others are all of them. -/
theorem iterate_eights {α : Type} (f : α → α) (n : Nat) (a : α) :
    f^[n &&& 7] ((f^[8])^[n >>> 3] a) = f^[n] a := by
  have hmod : n &&& 7 = n % 8 := Nat.and_two_pow_sub_one_eq_mod n 3
  have hdiv : n >>> 3 = n / 8 := Nat.shiftRight_eq_div_pow n 3
  rw [← Function.iterate_mul, ← Function.iterate_add_apply, hmod, hdiv, Nat.mod_add_div]

theorem encryptN_eq (block : BlockCipher) (sh : Nat) (src : Bytes) :
    encryptN block sh src =
      Feedback.encrypt (2 ^ sh) block.encrypt (src.length >>> sh) (block.encrypt initialVector) src := by
  rw [encryptN, iterate_eights, iterate_encStep]
  rfl

/-- The registers as the plain loop sees them. -/
def Regs.loop (st : Regs) : Loop := ⟨st.done, st.rest, st.tbl⟩

theorem decSwap_loop (w : Nat) (E : Bytes → Bytes) (st : Regs) : (decSwap w E st).loop = decStep w E st.loop := rfl

theorem decPair_loop (w : Nat) (E : Bytes → Bytes) (st : Regs) :
    (decPair w E st).loop = (decStep w E)^[2] st.loop := rfl

/-- Rounds of the unrolled loop are rounds of the plain one. -/
theorem iterate_loop {f : Regs → Regs} {g : Loop → Loop} (h : ∀ st, (f st).loop = g st.loop) (k : Nat) (st : Regs) :
    (f^[k] st).loop = g^[k] st.loop :=
  Function.Semiconj.iterate_right (h : Function.Semiconj Regs.loop f g) k st

theorem decryptN_eq (block : BlockCipher) (sh : Nat) (src : Bytes) :
    decryptN block sh src =
      Feedback.decrypt (2 ^ sh) block.encrypt (src.length >>> sh) (block.encrypt initialVector) src := by
  have hfour : ∀ st, ((decPair (2 ^ sh) block.encrypt)^[4] st).loop = (decStep (2 ^ sh) block.encrypt)^[8] st.loop := by
    intro st
    rw [iterate_loop (decPair_loop _ _)]
    rfl
  have hrun := iterate_loop (decSwap_loop (2 ^ sh) block.encrypt) (src.length >>> sh &&& 7)
    (((decPair (2 ^ sh) block.encrypt)^[4])^[src.length >>> sh >>> 3] ⟨[], src, block.encrypt initialVector, []⟩)
  rw [iterate_loop hfour, iterate_eights] at hrun
  show Loop.finish (Regs.loop _) = _
  rw [hrun, iterate_decStep]
  rfl

section
variable (block : BlockCipher) {sh : Nat}

theorem shift_bounds (sh len : Nat) : (len >>> sh) * 2 ^ sh ≤ len ∧ len < (len >>> sh + 1) * 2 ^ sh := by
  rw [Nat.shiftRight_eq_div_pow]
  exact ⟨Nat.div_mul_le_self _ _, Nat.lt_mul_of_div_lt (Nat.lt_succ_self _) (Nat.two_pow_pos sh)⟩

theorem encryptN_length (h : block.size = 2 ^ sh) (src : Bytes) : (encryptN block sh src).length = src.length := by
  have hE : ∀ b, (block.encrypt b).length = 2 ^ sh := fun b => (block.encrypt_length b).trans h
  obtain ⟨hle, hlt⟩ := shift_bounds sh src.length
  rw [encryptN_eq]
  exact Feedback.encrypt_length hE _ (hE _) hle hlt

theorem decryptN_length (h : block.size = 2 ^ sh) (src : Bytes) : (decryptN block sh src).length = src.length := by
  have hE : ∀ b, (block.encrypt b).length = 2 ^ sh := fun b => (block.encrypt_length b).trans h
  obtain ⟨hle, hlt⟩ := shift_bounds sh src.length
  rw [decryptN_eq]
  exact Feedback.decrypt_length hE _ (hE _) hle hlt

theorem decryptN_encryptN (h : block.size = 2 ^ sh) (src : Bytes) :
    decryptN block sh (encryptN block sh src) = src := by
  have hE : ∀ b, (block.encrypt b).length = 2 ^ sh := fun b => (block.encrypt_length b).trans h
  obtain ⟨hle, hlt⟩ := shift_bounds sh src.length
  rw [decryptN_eq, encryptN_length block h, encryptN_eq]
  exact Feedback.decrypt_encrypt hE _ (hE _) hle hlt

end

/-! ## The ciphers -/

/-- The implementations of `BlockCrypt` other than `aeadCrypt`.
mirrors src/crypt.go:131-138,164-166,269-271,293 -/
inductive BlockCrypt where
  | block (c : BlockCipher)
  | salsa20 (key : KeyStream)
  | simpleXOR (xortbl : Bytes)
  | none

/-- The first eight bytes are the nonce and stay.
mirrors src/crypt.go:176-184 -/
def salsaCrypt (key : KeyStream) (src : Bytes) : Bytes :=
  if src.length < 8 then src
  else src.take 8 ++ xorBytes (src.drop 8) (key.stream (src.take 8) (src.length - 8))

/-- Bytes past the table stay.
mirrors src/crypt.go:280-285 -/
def xorCrypt (xortbl src : Bytes) : Bytes := xorBytes src xortbl ++ src.drop xortbl.length

namespace BlockCrypt

/-- `Encrypt` in place.
mirrors src/crypt.go:141-145,176-184,280-285,301-308 -/
def encrypt : BlockCrypt → Bytes → Go Bytes
  | .block c, src => L1.encrypt c src
  | .salsa20 key, src => .ok (salsaCrypt key src)
  | .simpleXOR xortbl, src => .ok (xorCrypt xortbl src)
  | .none, src => .ok src

/-- `Decrypt` in place.
mirrors src/crypt.go:148-152,187-195,286-291,311-318 -/
def decrypt : BlockCrypt → Bytes → Go Bytes
  | .block c, src => L1.decrypt c src
  | .salsa20 key, src => .ok (salsaCrypt key src)
  | .simpleXOR xortbl, src => .ok (xorCrypt xortbl src)
  | .none, src => .ok src

end BlockCrypt

theorem salsaCrypt_length (key : KeyStream) (src : Bytes) : (salsaCrypt key src).length = src.length := by
  unfold salsaCrypt
  split
  · rfl
  · rw [List.length_append, xorBytes_length, key.stream_length, List.length_take, List.length_drop]
    omega

theorem salsaCrypt_twice (key : KeyStream) (src : Bytes) : salsaCrypt key (salsaCrypt key src) = src := by
  have hlen := salsaCrypt_length key src
  rw [salsaCrypt, hlen]
  split
  · rename_i h
    exact if_pos h
  · rename_i h
    have hout : salsaCrypt key src =
        src.take 8 ++ xorBytes (src.drop 8) (key.stream (src.take 8) (src.length - 8)) := if_neg h
    have h8 : (src.take 8).length = 8 := List.length_take_of_le (by omega)
    rw [hout, List.take_left' h8, List.drop_left' h8,
      mask_mask (Nat.le_of_eq (by rw [key.stream_length, List.length_drop])), List.take_append_drop]

theorem xorCrypt_length (tbl src : Bytes) : (xorCrypt tbl src).length = src.length := by
  rw [xorCrypt, List.length_append, xorBytes_length, List.length_drop]
  omega

theorem xorCrypt_twice (tbl src : Bytes) : xorCrypt tbl (xorCrypt tbl src) = src := by
  have hhead : xorBytes (xorBytes src tbl) tbl = src.take tbl.length := by
    rw [← xorBytes_take src tbl]
    exact mask_mask (by rw [List.length_take]; omega)
  rcases Nat.le_total src.length tbl.length with hle | hle
  · have hnil : src.drop tbl.length = [] := List.drop_eq_nil_of_le hle
    have hlen : (xorBytes src tbl).length ≤ tbl.length := by
      rw [xorBytes_length]
      omega
    rw [xorCrypt, xorCrypt, hnil, List.append_nil, hhead, List.take_of_length_le hle, List.drop_eq_nil_of_le hlen,
      List.append_nil]
  · have hlen : (xorBytes src tbl).length = tbl.length := by
      rw [xorBytes_length]
      omega
    rw [xorCrypt, xorCrypt, List.drop_left' hlen, ← xorBytes_take (_ ++ _), List.take_left' hlen, hhead,
      List.take_append_drop]

namespace BlockCrypt

/-- **What a cipher writes, it reads back.** -/
theorem decrypt_encrypt (c : BlockCrypt) (src : Bytes) :
    ∃ ct, c.encrypt src = .ok ct ∧ ct.length = src.length ∧ c.decrypt ct = .ok src := by
  cases c with
  | block c =>
    rcases c.supported with h | h
    · exact ⟨encrypt8 c src, if_pos h, encryptN_length c h src,
        (if_pos h).trans (congrArg Except.ok (decryptN_encryptN c h src))⟩
    · have h8 : ¬ c.size = 8 := by omega
      exact ⟨encrypt16 c src, (if_neg h8).trans (if_pos h), encryptN_length c h src,
        (if_neg h8).trans ((if_pos h).trans (congrArg Except.ok (decryptN_encryptN c h src)))⟩
  | salsa20 key => exact ⟨_, rfl, salsaCrypt_length key src, congrArg Except.ok (salsaCrypt_twice key src)⟩
  | simpleXOR tbl => exact ⟨_, rfl, xorCrypt_length tbl src, congrArg Except.ok (xorCrypt_twice tbl src)⟩
  | none => exact ⟨src, rfl, rfl, rfl⟩

/-- `Decrypt` returns on any bytes. -/
theorem decrypt_ok (c : BlockCrypt) (src : Bytes) : ∃ p, c.decrypt src = .ok p ∧ p.length = src.length := by
  cases c with
  | block c =>
    rcases c.supported with h | h
    · exact ⟨decrypt8 c src, if_pos h, decryptN_length c h src⟩
    · exact ⟨decrypt16 c src, (if_neg (by omega)).trans (if_pos h), decryptN_length c h src⟩
  | salsa20 key => exact ⟨_, rfl, salsaCrypt_length key src⟩
  | simpleXOR tbl => exact ⟨_, rfl, xorCrypt_length tbl src⟩
  | none => exact ⟨src, rfl, rfl⟩

end BlockCrypt

end KcpGo.L1
