import KcpGo.Core.Slice
import KcpGo.L1Encoding.Crypt

/-!
# The CFB loops on memory (`crypt.go:333-697`)

`Crypt` has the loops as functions of the bytes. Here they run on the memory
of a call: the destination, the source, which may be the destination itself,
and the buffer the two registers are in. Every slice is checked against the
length of what it is taken from, where Go allows the capacity.

`At` relates the memory after some blocks to the loop over the bytes. Each
block keeps it (`encBlock_at`, `decBlock_at`), so the rounds of eight and the
blocks left over do, and `cfb_textbook` follows from the facts about the loop.
`encrypt_bytes` and `decrypt_bytes` give `Crypt` its functions.
-/
namespace KcpGo.L1.Cfb

open KcpGo.Feedback

/-- `src = none`: the source is the destination. -/
structure Mem where
  dst : Bytes
  src : Option Bytes
  buf : Bytes
  deriving DecidableEq

/-- The bytes a read of `src` sees. -/
def Mem.input (m : Mem) : Bytes := m.src.getD m.dst

/-- `b[lo:hi]`. -/
def slice (b : Bytes) (lo hi : Nat) : Go Bytes :=
  if lo ≤ hi ∧ hi ≤ b.length then .ok ((b.drop lo).take (hi - lo)) else .error .sliceBounds

/-- `subtle.XORBytes(dst[lo:dhi], src[lo:shi], reg)`, `reg` being the `w`
bytes of the buffer from `reg` on. -/
def xorInto (w lo dhi shi reg : Nat) (m : Mem) : Go Mem := do
  let d ← slice m.dst lo dhi
  let s ← slice m.input lo shi
  let t ← slice m.buf reg (reg + w)
  if d.length < (xorBytes s t).length then .error (.explicit "subtle.XORBytes: dst too short")
  else .ok { m with dst := Slice.overwrite m.dst lo (xorBytes s t) }

/-- `block.Encrypt(reg, x)` reads one block of `x`. -/
def encryptInto (block : BlockCipher) (reg : Nat) (x : Bytes) (m : Mem) : Go Mem := do
  let _ ← slice m.buf reg (reg + block.size)
  if x.length < block.size then .error (.explicit "input not full block")
  else .ok { m with buf := Slice.overwrite m.buf reg (block.encrypt (x.take block.size)) }

/-! ## Encryption -/

/-- One block with its end in `dst` and `src`; the register is at 0.
mirrors src/crypt.go:359-360, 387-388, 439-440, 467-468 -/
def encBlock (block : BlockCipher) (lo dhi shi : Nat) (m : Mem) : Go Mem := do
  let m ← xorInto block.size lo dhi shi 0 m
  let x ← slice m.dst lo dhi
  encryptInto block 0 x m

/-- A round of eight blocks.
mirrors src/crypt.go:356-382, 436-462 -/
def encRound (block : BlockCipher) (w base : Nat) (m : Mem) : Go Mem := do
  let _ ← slice m.input base (base + 8 * w)
  let _ ← slice m.dst base (base + 8 * w)
  let m ← encBlock block base (base + w) (base + w) m
  let m ← encBlock block (base + w) (base + 2 * w) (base + 2 * w) m
  let m ← encBlock block (base + 2 * w) (base + 3 * w) (base + 3 * w) m
  let m ← encBlock block (base + 3 * w) (base + 4 * w) (base + 4 * w) m
  let m ← encBlock block (base + 4 * w) (base + 5 * w) (base + 5 * w) m
  let m ← encBlock block (base + 5 * w) (base + 6 * w) (base + 6 * w) m
  let m ← encBlock block (base + 6 * w) (base + 7 * w) (base + 7 * w) m
  encBlock block (base + 7 * w) (base + 8 * w) (base + 8 * w) m

/-- `for range repeat`. -/
def encRounds (block : BlockCipher) (w : Nat) : Nat → Nat → Mem → Go (Nat × Mem)
  | 0, base, m => .ok (base, m)
  | k + 1, base, m => do
    let m ← encRound block w base m
    encRounds block w k (base + 8 * w) m

/-- The end of the slices in the blocks left over: the block for 8 bytes
(`src[base:base+8]`), the whole rest for 16 (`src[base:]`). -/
abbrev Stop := Nat → Nat → Nat

def stop8 : Stop := fun base _ => base + 8
def stop16 : Stop := fun _ len => len

/-- The cases of `switch left`, each falling through to the next.
mirrors src/crypt.go:385-423, 465-503 -/
def encTail (block : BlockCipher) (w : Nat) (stop : Stop) : Nat → Nat → Mem → Go Mem
  | 0, base, m => xorInto block.size base m.dst.length m.input.length 0 m
  | left + 1, base, m => do
    let m ← encBlock block base (stop base m.dst.length) (stop base m.input.length) m
    encTail block w stop left (base + w) m

def encryptWith (block : BlockCipher) (sh : Nat) (stop : Stop) (m : Mem) : Go Mem := do
  let m ← encryptInto block 0 initialVector m
  let n := m.input.length >>> sh
  let (base, m) ← encRounds block (2 ^ sh) (n >>> 3) 0 m
  encTail block (2 ^ sh) stop (n &&& 7) base m

/-- mirrors src/crypt.go:347-424 (`encrypt8`) -/
def encrypt8 (block : BlockCipher) (m : Mem) : Go Mem := encryptWith block 3 stop8 m

/-- mirrors src/crypt.go:428-504 (`encrypt16`) -/
def encrypt16 (block : BlockCipher) (m : Mem) : Go Mem := encryptWith block 4 stop16 m

/-- mirrors src/crypt.go:334-343 (`encrypt`) -/
def encrypt (block : BlockCipher) (m : Mem) : Go Mem :=
  if block.size = 8 then encrypt8 block m
  else if block.size = 16 then encrypt16 block m
  else .error (.explicit "unsupported cipher block size")

/-! ## Decryption -/

/-- One block: the next register from the ciphertext, then the mask.
mirrors src/crypt.go:535-536, 563-564, 625-626, 653-654 -/
def decBlock (block : BlockCipher) (lo dhi shi tbl next : Nat) (m : Mem) : Go Mem := do
  let x ← slice m.input lo shi
  let m ← encryptInto block next x m
  xorInto block.size lo dhi shi tbl m

/-- The registers alternate.
mirrors src/crypt.go:532-558, 622-648 -/
def decRound (block : BlockCipher) (w base tbl next : Nat) (m : Mem) : Go Mem := do
  let _ ← slice m.input base (base + 8 * w)
  let _ ← slice m.dst base (base + 8 * w)
  let m ← decBlock block base (base + w) (base + w) tbl next m
  let m ← decBlock block (base + w) (base + 2 * w) (base + 2 * w) next tbl m
  let m ← decBlock block (base + 2 * w) (base + 3 * w) (base + 3 * w) tbl next m
  let m ← decBlock block (base + 3 * w) (base + 4 * w) (base + 4 * w) next tbl m
  let m ← decBlock block (base + 4 * w) (base + 5 * w) (base + 5 * w) tbl next m
  let m ← decBlock block (base + 5 * w) (base + 6 * w) (base + 6 * w) next tbl m
  let m ← decBlock block (base + 6 * w) (base + 7 * w) (base + 7 * w) tbl next m
  decBlock block (base + 7 * w) (base + 8 * w) (base + 8 * w) next tbl m

def decRounds (block : BlockCipher) (w tbl next : Nat) : Nat → Nat → Mem → Go (Nat × Mem)
  | 0, base, m => .ok (base, m)
  | k + 1, base, m => do
    let m ← decRound block w base tbl next m
    decRounds block w tbl next k (base + 8 * w) m

/-- `tbl, next = next, tbl` after each block.
mirrors src/crypt.go:561-606, 651-696 -/
def decTail (block : BlockCipher) (w : Nat) (stop : Stop) : Nat → Nat → Nat → Nat → Mem → Go Mem
  | 0, base, tbl, _, m => xorInto block.size base m.dst.length m.input.length tbl m
  | left + 1, base, tbl, next, m => do
    let m ← decBlock block base (stop base m.dst.length) (stop base m.input.length) tbl next m
    decTail block w stop left (base + w) next tbl m

def decryptWith (block : BlockCipher) (sh : Nat) (stop : Stop) (m : Mem) : Go Mem := do
  let _ ← slice m.buf (2 ^ sh) (2 * 2 ^ sh)
  let m ← encryptInto block 0 initialVector m
  let n := m.input.length >>> sh
  let (base, m) ← decRounds block (2 ^ sh) 0 (2 ^ sh) (n >>> 3) 0 m
  decTail block (2 ^ sh) stop (n &&& 7) base 0 (2 ^ sh) m

/-- mirrors src/crypt.go:521-607 (`decrypt8`) -/
def decrypt8 (block : BlockCipher) (m : Mem) : Go Mem := decryptWith block 3 stop8 m

/-- mirrors src/crypt.go:611-697 (`decrypt16`) -/
def decrypt16 (block : BlockCipher) (m : Mem) : Go Mem := decryptWith block 4 stop16 m

/-- mirrors src/crypt.go:507-516 (`decrypt`) -/
def decrypt (block : BlockCipher) (m : Mem) : Go Mem :=
  if block.size = 8 then decrypt8 block m
  else if block.size = 16 then decrypt16 block m
  else .error (.explicit "unsupported cipher block size")

/-! ## Slices -/

theorem slice_ok {b : Bytes} {lo hi : Nat} (h : lo ≤ hi) (hb : hi ≤ b.length) :
    slice b lo hi = .ok ((b.drop lo).take (hi - lo)) :=
  if_pos ⟨h, hb⟩

section
variable {d x : Bytes} {lo : Nat} (h : lo + x.length ≤ d.length)
include h

theorem overwrite_take : (Slice.overwrite d lo x).take (lo + x.length) = d.take lo ++ x := by
  unfold Slice.overwrite
  refine List.take_left' ?_
  rw [List.length_append, List.length_take]
  omega

theorem overwrite_drop : (Slice.overwrite d lo x).drop (lo + x.length) = d.drop (lo + x.length) := by
  unfold Slice.overwrite
  refine List.drop_left' ?_
  rw [List.length_append, List.length_take]
  omega

/-- What was written is read back. -/
theorem overwrite_read {n : Nat} (hn : n ≤ x.length) : ((Slice.overwrite d lo x).drop lo).take n = x.take n := by
  unfold Slice.overwrite
  rw [List.append_assoc, List.drop_left' (by rw [List.length_take]; omega), List.take_append_of_le_length hn]

/-- Other places are not. -/
theorem overwrite_other {i n : Nat} (hi : i + n ≤ lo ∨ lo + x.length ≤ i) :
    ((Slice.overwrite d lo x).drop i).take n = (d.drop i).take n := by
  rcases hi with hi | hi
  · unfold Slice.overwrite
    rw [List.take_drop, List.take_drop, List.append_assoc,
      List.take_append_of_le_length (by rw [List.length_take]; omega),
      List.take_take]
    congr 2
    omega
  · obtain ⟨j, rfl⟩ := Nat.exists_eq_add_of_le hi
    rw [← List.drop_drop, overwrite_drop h, List.drop_drop]

end

/-! ## The memory and the loop -/

/-- The call has written the first `base` bytes; `st` is the loop over the
bytes. The register is the `w` bytes of the buffer from `reg` on. -/
structure At (w len room : Nat) (src : Option Bytes) (m : Mem) (base reg : Nat) (st : Loop) : Prop where
  done : m.dst.take base = st.done
  rest : m.input.drop base = st.rest
  tbl : (m.buf.drop reg).take w = st.tbl
  dstLen : m.dst.length = len
  inputLen : m.input.length = len
  bufLen : m.buf.length = room
  same : m.src = src
  le : base ≤ len
  fits : reg + w ≤ room

section
variable {w len room base reg : Nat} {src : Option Bytes} {m : Mem} {st : Loop}

namespace At

theorem tbl_length (h : At w len room src m base reg st) : st.tbl.length = w := by
  have hfits := h.fits
  rw [← h.tbl, List.length_take, List.length_drop, h.bufLen]
  omega

theorem rest_length (h : At w len room src m base reg st) : st.rest.length = len - base := by
  rw [← h.rest, List.length_drop, h.inputLen]

/-- The mask of a block, or of what is left. -/
theorem mask_length (h : At w len room src m base reg st) :
    (xorBytes (st.rest.take w) st.tbl).length = min w (len - base) := by
  rw [xorBytes_length, List.length_take, h.rest_length, h.tbl_length]
  omega

/-- Longer slices of the source give the same mask: the register has `w` bytes. -/
theorem mask_of_long (h : At w len room src m base reg st) {shi : Nat} (hs : w ≤ shi - base ∨ shi = len) :
    xorBytes ((m.input.drop base).take (shi - base)) st.tbl = xorBytes (st.rest.take w) st.tbl := by
  have hcut : ((m.input.drop base).take (shi - base)).take st.tbl.length = st.rest.take w := by
    rw [h.rest, h.tbl_length]
    rcases hs with hs | rfl
    · rw [List.take_take, Nat.min_eq_left hs]
    · rw [List.take_of_length_le (Nat.le_of_eq h.rest_length)]
  rw [← xorBytes_take, hcut]

end At

/-- Reads of the source past what was written do not see it. -/
theorem input_drop {x : Bytes} (hx : base + x.length ≤ m.dst.length) :
    (Mem.input { m with dst := Slice.overwrite m.dst base x }).drop (base + x.length) =
      m.input.drop (base + x.length) := by
  obtain ⟨dst, src, buf⟩ := m
  cases src with
  | none => exact overwrite_drop hx
  | some s => rfl

theorem input_length {x : Bytes} (hx : base + x.length ≤ m.dst.length) :
    (Mem.input { m with dst := Slice.overwrite m.dst base x }).length = m.input.length := by
  obtain ⟨dst, src, buf⟩ := m
  cases src with
  | none => exact Slice.overwrite_length hx
  | some s => rfl

/-- **A masked write.** -/
theorem xorInto_at (h : At w len room src m base reg st) {dhi shi : Nat} (hd : base ≤ dhi ∧ dhi ≤ len)
    (hs : base ≤ shi ∧ shi ≤ len)
    (hdw : w ≤ dhi - base ∨ dhi = len) (hsw : w ≤ shi - base ∨ shi = len) :
    ∃ m', xorInto w base dhi shi reg m = .ok m' ∧ m'.buf = m.buf ∧ At w len room src m' (base + min w (len - base)) reg
      ⟨st.done ++ xorBytes (st.rest.take w) st.tbl, st.rest.drop w, st.tbl⟩ := by
  have hle := h.le
  have hx := h.mask_length
  have hfit : base + (xorBytes (st.rest.take w) st.tbl).length ≤ m.dst.length := by
    rw [hx, h.dstLen]
    omega
  refine ⟨{ m with dst := Slice.overwrite m.dst base (xorBytes (st.rest.take w) st.tbl) }, ?_, rfl, ?_⟩
  · rw [xorInto, slice_ok hd.1 (by rw [h.dstLen]; exact hd.2), slice_ok hs.1 (by rw [h.inputLen]; exact hs.2),
      slice_ok (Nat.le_add_right reg w) (by rw [h.bufLen]; exact h.fits), Nat.add_sub_cancel_left, h.tbl]
    show (if _ then _ else _) = _
    rw [h.mask_of_long hsw, if_neg]
    rw [hx, List.length_take, List.length_drop, h.dstLen]
    omega
  · rw [← hx]
    exact {
      done := by rw [overwrite_take hfit, h.done]
      rest := by
        rw [input_drop hfit, ← List.drop_drop, h.rest, hx]
        rcases Nat.le_total w (len - base) with hw | hw
        · rw [Nat.min_eq_left hw]
        · have hlen := h.rest_length
          rw [List.drop_eq_nil_of_le (by omega), List.drop_eq_nil_of_le (by omega)]
      tbl := h.tbl
      dstLen := (Slice.overwrite_length hfit).trans h.dstLen
      inputLen := (input_length hfit).trans h.inputLen
      bufLen := h.bufLen
      same := h.same
      le := by
        rw [hx]
        omega
      fits := h.fits }

/-- **A new register**, in the place of the old one or beside it. -/
theorem encryptInto_at {block : BlockCipher} (hw : block.size = w) (h : At w len room src m base reg st)
    {reg' : Nat} {x : Bytes}
    (hfit : reg' + w ≤ room) (hx : w ≤ x.length) :
    ∃ m', encryptInto block reg' x m = .ok m' ∧
      At w len room src m' base reg' { st with tbl := block.encrypt (x.take w) } ∧
      (reg + w ≤ reg' ∨ reg' + w ≤ reg → At w len room src m' base reg st) := by
  subst hw
  have hlen := block.encrypt_length (x.take block.size)
  have hbuf : reg' + (block.encrypt (x.take block.size)).length ≤ m.buf.length := by
    rw [hlen, h.bufLen]
    exact hfit
  refine ⟨{ m with buf := Slice.overwrite m.buf reg' (block.encrypt (x.take block.size)) }, ?_, ?_, fun hreg => ?_⟩
  · rw [encryptInto, slice_ok (Nat.le_add_right _ _) (by rw [h.bufLen]; exact hfit)]
    exact if_neg (Nat.not_lt.mpr hx)
  · refine { h with tbl := ?_, bufLen := (Slice.overwrite_length hbuf).trans h.bufLen, fits := hfit }
    rw [overwrite_read hbuf (Nat.le_of_eq hlen.symm), List.take_of_length_le (Nat.le_of_eq hlen)]
  · refine { h with tbl := ?_, bufLen := (Slice.overwrite_length hbuf).trans h.bufLen }
    rw [overwrite_other hbuf (by rw [hlen]; exact hreg), h.tbl]

end

/-! ## One block -/

section
variable {block : BlockCipher} {w len room base reg : Nat} {src : Option Bytes} {m : Mem} {st : Loop}

/-- Slices of a whole block or more, within the bytes. -/
def Covers (w len lo hi : Nat) : Prop := lo + w ≤ hi ∧ hi ≤ len

/-- `xorInto_at` for a whole block. -/
theorem xorInto_block (h : At w len room src m base reg st) {dhi shi : Nat} (hd : Covers w len base dhi)
    (hs : Covers w len base shi) :
    ∃ m', xorInto w base dhi shi reg m = .ok m' ∧ m'.buf = m.buf ∧ At w len room src m' (base + w) reg
      ⟨st.done ++ xorBytes (st.rest.take w) st.tbl, st.rest.drop w, st.tbl⟩ := by
  obtain ⟨hd, hdl⟩ := hd
  obtain ⟨hs, hsl⟩ := hs
  have hstep := xorInto_at h ⟨by omega, hdl⟩ ⟨by omega, hsl⟩ (.inl (by omega)) (.inl (by omega))
  rw [Nat.min_eq_left (by omega)] at hstep
  exact hstep

/-- The block just written. -/
theorem At.written (h : At w len room src m (base + w) reg st) {done x : Bytes}
    (hdone : st.done = done ++ x) (hx : x.length = w) :
    (m.dst.drop base).take w = x := by
  have hle := h.le
  have hlen := congrArg List.length (h.done.trans hdone)
  rw [List.length_take_of_le (by rw [h.dstLen]; exact hle), List.length_append, hx] at hlen
  rw [List.take_drop, h.done, hdone, List.drop_left' (by omega)]

theorem encBlock_at (hw : block.size = w) (h : At w len room src m base 0 st) {dhi shi hi : Nat}
    (hd : Covers w len base dhi)
    (hs : Covers w len base shi) (hhi : hi = base + w) :
    ∃ m', encBlock block base dhi shi m = .ok m' ∧ At w len room src m' hi 0 (encStep w block.encrypt st) := by
  subst hhi
  obtain ⟨m₁, h₁, -, hat₁⟩ := xorInto_block h hd hs
  obtain ⟨hd, hdl⟩ := hd
  have hx : (xorBytes (st.rest.take w) st.tbl).length = w := by
    rw [h.mask_length]
    omega
  have hlen := hat₁.dstLen
  obtain ⟨m₂, h₂, hat₂, -⟩ := encryptInto_at (x := (m₁.dst.drop base).take (dhi - base)) hw hat₁ h.fits
    (by rw [List.length_take, List.length_drop, hlen]; omega)
  refine ⟨m₂, ?_, ?_⟩
  · rw [encBlock, hw, h₁, Go.ok_bind, slice_ok (by omega) (by omega), Go.ok_bind, h₂]
  · rw [List.take_take, Nat.min_eq_left (by omega), hat₁.written rfl hx] at hat₂
    exact hat₂

theorem decBlock_at (hw : block.size = w) {next : Nat} (h : At w len room src m base reg st) (hfit : next + w ≤ room)
    (hapart : reg + w ≤ next ∨ next + w ≤ reg) {dhi shi hi : Nat} (hd : Covers w len base dhi)
    (hs : Covers w len base shi)
    (hhi : hi = base + w) :
    ∃ m', decBlock block base dhi shi reg next m = .ok m' ∧
      At w len room src m' hi next (decStep w block.encrypt st) := by
  subst hhi
  have hlen := h.inputLen
  have hs' := hs
  obtain ⟨hsw, hsl⟩ := hs
  obtain ⟨m₁, h₁, hnext, hold⟩ := encryptInto_at (x := (m.input.drop base).take (shi - base)) hw h hfit
    (by rw [List.length_take, List.length_drop, hlen]; omega)
  obtain ⟨m₂, h₂, hbuf, hat₂⟩ := xorInto_block (hold hapart) hd hs'
  refine ⟨m₂, ?_, { hat₂ with tbl := ?_, fits := hfit }⟩
  · rw [decBlock, slice_ok (by omega) (by omega), Go.ok_bind, h₁, Go.ok_bind, hw, h₂]
  · have htbl := hnext.tbl
    rw [List.take_take, Nat.min_eq_left (by omega), h.rest] at htbl
    rw [hbuf]
    exact htbl

/-! ## Rounds -/

theorem encRound_at (hw : block.size = w) (h : At w len room src m base 0 st) (hle : base + 8 * w ≤ len) :
    ∃ m', encRound block w base m = .ok m' ∧
      At w len room src m' (base + 8 * w) 0 ((encStep w block.encrypt)^[8] st) := by
  have hblock (i hi : Nat) {lo : Nat} {m : Mem} {st : Loop} (h : At w len room src m lo 0 st)
    (hlo : lo = base + i * w) (hi8 : i < 8)
      (hhi : hi = lo + w) : ∃ m', encBlock block lo hi hi m = .ok m' ∧
        At w len room src m' hi 0 (encStep w block.encrypt st) := by
    have hi' : (i + 1) * w ≤ 8 * w := Nat.mul_le_mul_right w hi8
    rw [Nat.succ_mul] at hi'
    exact encBlock_at hw h ⟨by omega, by omega⟩ ⟨by omega, by omega⟩ hhi
  obtain ⟨m₁, h₁, hat⟩ := hblock 0 (base + w) h (by omega) (by decide) rfl
  obtain ⟨m₂, h₂, hat⟩ := hblock 1 (base + 2 * w) hat (by omega) (by decide) (by omega)
  obtain ⟨m₃, h₃, hat⟩ := hblock 2 (base + 3 * w) hat (by omega) (by decide) (by omega)
  obtain ⟨m₄, h₄, hat⟩ := hblock 3 (base + 4 * w) hat (by omega) (by decide) (by omega)
  obtain ⟨m₅, h₅, hat⟩ := hblock 4 (base + 5 * w) hat (by omega) (by decide) (by omega)
  obtain ⟨m₆, h₆, hat⟩ := hblock 5 (base + 6 * w) hat (by omega) (by decide) (by omega)
  obtain ⟨m₇, h₇, hat⟩ := hblock 6 (base + 7 * w) hat (by omega) (by decide) (by omega)
  obtain ⟨m₈, h₈, hat⟩ := hblock 7 (base + 8 * w) hat (by omega) (by decide) (by omega)
  refine ⟨m₈, ?_, hat⟩
  rw [encRound, slice_ok (by omega) (by rw [h.inputLen]; exact hle), slice_ok (by omega) (by rw [h.dstLen]; exact hle)]
  simp only [Go.ok_bind, h₁, h₂, h₃, h₄, h₅, h₆, h₇, h₈]

theorem encRounds_at (hw : block.size = w) : ∀ {k base : Nat} {m : Mem} {st : Loop}, At w len room src m base 0 st →
    base + k * (8 * w) ≤ len → ∃ m', encRounds block w k base m = .ok (base + k * (8 * w), m') ∧
      At w len room src m' (base + k * (8 * w)) 0 (((encStep w block.encrypt)^[8])^[k] st) := by
  intro k
  induction k with
  | zero =>
    intro base m st h _
    rw [Nat.zero_mul, Nat.add_zero]
    exact ⟨m, rfl, h⟩
  | succ k ih =>
    intro base m st h hle
    rw [Nat.succ_mul] at hle
    obtain ⟨m₁, h₁, hat₁⟩ := encRound_at hw h (by omega)
    obtain ⟨m₂, h₂, hat₂⟩ := ih hat₁ (by omega)
    have hbase : base + (k + 1) * (8 * w) = base + 8 * w + k * (8 * w) := by
      rw [Nat.succ_mul]
      omega
    rw [hbase, Function.iterate_succ_apply]
    refine ⟨m₂, ?_, hat₂⟩
    rw [encRounds, h₁, Go.ok_bind, h₂]

/-- Both registers are in use; after eight blocks they are back in place. -/
theorem decRound_at (hw : block.size = w) {next : Nat} (h : At w len room src m base reg st) (hfit : next + w ≤ room)
    (hapart : reg + w ≤ next ∨ next + w ≤ reg) (hle : base + 8 * w ≤ len) :
    ∃ m', decRound block w base reg next m = .ok m' ∧
      At w len room src m' (base + 8 * w) reg ((decStep w block.encrypt)^[8] st) := by
  have hblock (i hi : Nat) {a b lo : Nat} {m : Mem} {st : Loop} (h : At w len room src m lo a st) (hb : b + w ≤ room)
      (hab : a + w ≤ b ∨ b + w ≤ a) (hlo : lo = base + i * w) (hi8 : i < 8) (hhi : hi = lo + w) :
      ∃ m', decBlock block lo hi hi a b m = .ok m' ∧ At w len room src m' hi b (decStep w block.encrypt st) := by
    have hi' : (i + 1) * w ≤ 8 * w := Nat.mul_le_mul_right w hi8
    rw [Nat.succ_mul] at hi'
    exact decBlock_at hw h hb hab ⟨by omega, by omega⟩ ⟨by omega, by omega⟩ hhi
  have hreg := h.fits
  obtain ⟨m₁, h₁, hat⟩ := hblock 0 (base + w) h hfit hapart (by omega) (by decide) rfl
  obtain ⟨m₂, h₂, hat⟩ := hblock 1 (base + 2 * w) hat hreg hapart.symm (by omega) (by decide) (by omega)
  obtain ⟨m₃, h₃, hat⟩ := hblock 2 (base + 3 * w) hat hfit hapart (by omega) (by decide) (by omega)
  obtain ⟨m₄, h₄, hat⟩ := hblock 3 (base + 4 * w) hat hreg hapart.symm (by omega) (by decide) (by omega)
  obtain ⟨m₅, h₅, hat⟩ := hblock 4 (base + 5 * w) hat hfit hapart (by omega) (by decide) (by omega)
  obtain ⟨m₆, h₆, hat⟩ := hblock 5 (base + 6 * w) hat hreg hapart.symm (by omega) (by decide) (by omega)
  obtain ⟨m₇, h₇, hat⟩ := hblock 6 (base + 7 * w) hat hfit hapart (by omega) (by decide) (by omega)
  obtain ⟨m₈, h₈, hat⟩ := hblock 7 (base + 8 * w) hat hreg hapart.symm (by omega) (by decide) (by omega)
  refine ⟨m₈, ?_, hat⟩
  rw [decRound, slice_ok (by omega) (by rw [h.inputLen]; exact hle), slice_ok (by omega) (by rw [h.dstLen]; exact hle)]
  simp only [Go.ok_bind, h₁, h₂, h₃, h₄, h₅, h₆, h₇, h₈]

theorem decRounds_at (hw : block.size = w) {next : Nat} (hfit : next + w ≤ room)
    (hapart : reg + w ≤ next ∨ next + w ≤ reg) :
    ∀ {k base : Nat} {m : Mem} {st : Loop}, At w len room src m base reg st → base + k * (8 * w) ≤ len →
      ∃ m', decRounds block w reg next k base m = .ok (base + k * (8 * w), m') ∧
        At w len room src m' (base + k * (8 * w)) reg (((decStep w block.encrypt)^[8])^[k] st) := by
  intro k
  induction k with
  | zero =>
    intro base m st h _
    rw [Nat.zero_mul, Nat.add_zero]
    exact ⟨m, rfl, h⟩
  | succ k ih =>
    intro base m st h hle
    rw [Nat.succ_mul] at hle
    obtain ⟨m₁, h₁, hat₁⟩ := decRound_at hw h hfit hapart (by omega)
    obtain ⟨m₂, h₂, hat₂⟩ := ih hat₁ (by omega)
    have hbase : base + (k + 1) * (8 * w) = base + 8 * w + k * (8 * w) := by
      rw [Nat.succ_mul]
      omega
    rw [hbase, Function.iterate_succ_apply]
    refine ⟨m₂, ?_, hat₂⟩
    rw [decRounds, h₁, Go.ok_bind, h₂]

/-! ## The blocks left over -/

/-- Either way of slicing takes in the block and stays within the bytes. -/
def Stops (w len : Nat) (stop : Stop) : Prop := ∀ base, base + w ≤ len → Covers w len base (stop base len)

theorem stops8 (len : Nat) : Stops 8 len stop8 := fun _ h => ⟨Nat.le_refl _, h⟩

theorem stops16 (w len : Nat) : Stops w len stop16 := fun _ h => ⟨h, Nat.le_refl _⟩

/-- The mask of what is left completes the bytes. -/
theorem xorInto_finish (h : At w len room src m base reg st) (hlt : len < base + w) :
    ∃ m', xorInto w base m.dst.length m.input.length reg m = .ok m' ∧ m'.src = src ∧ m'.dst = st.finish := by
  have hle := h.le
  rw [h.dstLen, h.inputLen]
  obtain ⟨m', hm, -, hat⟩ := xorInto_at h ⟨hle, Nat.le_refl len⟩ ⟨hle, Nat.le_refl len⟩ (.inr rfl) (.inr rfl)
  refine ⟨m', hm, hat.same, ?_⟩
  have hend : base + min w (len - base) = m'.dst.length := by
    rw [hat.dstLen]
    omega
  have hdone := hat.done
  rw [hend, List.take_length, List.take_of_length_le (by rw [h.rest_length]; omega)] at hdone
  exact hdone

theorem encTail_at (hw : block.size = w) {stop : Stop} (hstop : Stops w len stop) :
    ∀ {left base : Nat} {m : Mem} {st : Loop},
    At w len room src m base 0 st → base + left * w ≤ len → len < base + (left + 1) * w →
    ∃ m', encTail block w stop left base m = .ok m' ∧ m'.src = src ∧
      m'.dst = ((encStep w block.encrypt)^[left] st).finish := by
  intro left
  induction left with
  | zero =>
    intro base m st h _ hlt
    rw [encTail, hw]
    exact xorInto_finish h (by omega)
  | succ left ih =>
    intro base m st h hle hlt
    rw [Nat.succ_mul] at hle hlt
    have hcover := hstop base (by omega)
    obtain ⟨m₁, h₁, hat₁⟩ := encBlock_at hw h hcover hcover rfl
    obtain ⟨m₂, h₂, hsrc, hdst⟩ := ih hat₁ (by omega) (by omega)
    refine ⟨m₂, ?_, hsrc, hdst⟩
    rw [encTail, h.dstLen, h.inputLen, h₁, Go.ok_bind, h₂]

theorem decTail_at (hw : block.size = w) {stop : Stop} (hstop : Stops w len stop) :
    ∀ {left base tbl next : Nat} {m : Mem} {st : Loop}, At w len room src m base tbl st → next + w ≤ room →
      (tbl + w ≤ next ∨ next + w ≤ tbl) → base + left * w ≤ len → len < base + (left + 1) * w →
      ∃ m', decTail block w stop left base tbl next m = .ok m' ∧ m'.src = src ∧
        m'.dst = ((decStep w block.encrypt)^[left] st).finish := by
  intro left
  induction left with
  | zero =>
    intro base tbl next m st h _ _ _ hlt
    rw [decTail, hw]
    exact xorInto_finish h (by omega)
  | succ left ih =>
    intro base tbl next m st h hfit hapart hle hlt
    rw [Nat.succ_mul] at hle hlt
    have hcover := hstop base (by omega)
    obtain ⟨m₁, h₁, hat₁⟩ := decBlock_at hw h hfit hapart hcover hcover rfl
    obtain ⟨m₂, h₂, hsrc, hdst⟩ := ih hat₁ h.fits hapart.symm (by omega) (by omega)
    refine ⟨m₂, ?_, hsrc, hdst⟩
    rw [decTail, h.dstLen, h.inputLen, h₁, Go.ok_bind, h₂]

end

/-! ## Whole calls -/

/-- `dst` is as long as `src`, and the buffer has `n` bytes. -/
structure Fits (n : Nat) (m : Mem) : Prop where
  len : m.dst.length = m.input.length
  buf : n ≤ m.buf.length

/-- The register before the first block. -/
def firstMask (block : BlockCipher) : Bytes := block.encrypt (initialVector.take block.size)

theorem split_eights (n w : Nat) : (n >>> 3) * (8 * w) + (n &&& 7) * w = n * w := by
  have hmod : n &&& 7 = n % 8 := Nat.and_two_pow_sub_one_eq_mod n 3
  have hdiv : n >>> 3 = n / 8 := Nat.shiftRight_eq_div_pow n 3
  rw [hmod, hdiv, ← Nat.mul_assoc, ← Nat.add_mul, Nat.mul_comm (n / 8), Nat.div_add_mod]

section
variable {block : BlockCipher} {sh : Nat} {m : Mem}

/-- The first register is in place. -/
theorem start_at (hw : block.size = 2 ^ sh) (h : Fits (2 ^ sh) m) :
    ∃ m', encryptInto block 0 initialVector m = .ok m' ∧
      At (2 ^ sh) m.input.length m.buf.length m.src m' 0 0 ⟨[], m.input, firstMask block⟩ := by
  have hbuf : 0 + 2 ^ sh ≤ m.buf.length := by
    rw [Nat.zero_add]
    exact h.buf
  have hstart : At (2 ^ sh) m.input.length m.buf.length m.src m 0 0 ⟨[], m.input, m.buf.take (2 ^ sh)⟩ :=
    ⟨rfl, rfl, rfl, h.len, rfl, rfl, rfl, Nat.zero_le _, hbuf⟩
  have hiv : 2 ^ sh ≤ initialVector.length := by
    rw [← hw]
    rcases block.supported with h8 | h16
    · rw [h8]
      decide
    · rw [h16]
      decide
  obtain ⟨m', hm, hat, -⟩ := encryptInto_at hw hstart hbuf hiv
  rw [← hw] at hat ⊢
  exact ⟨m', hm, hat⟩

/-- The bounds of the rounds and of the blocks left over. -/
theorem parts_bounds (sh len : Nat) :
    0 + (len >>> sh >>> 3) * (8 * 2 ^ sh) ≤ len ∧
      0 + (len >>> sh >>> 3) * (8 * 2 ^ sh) + (len >>> sh &&& 7) * 2 ^ sh ≤ len ∧
      len < 0 + (len >>> sh >>> 3) * (8 * 2 ^ sh) + ((len >>> sh &&& 7) + 1) * 2 ^ sh := by
  have hsplit := split_eights (len >>> sh) (2 ^ sh)
  obtain ⟨hle, hlt⟩ := shift_bounds sh len
  rw [Nat.succ_mul] at hlt
  rw [Nat.succ_mul (len >>> sh &&& 7)]
  omega

/-- **The unrolled encryption is cipher feedback.** -/
theorem encryptWith_eq (hw : block.size = 2 ^ sh) {stop : Stop} (hstop : Stops (2 ^ sh) m.input.length stop)
    (h : Fits (2 ^ sh) m) :
    ∃ m', encryptWith block sh stop m = .ok m' ∧ m'.src = m.src ∧
      m'.dst = Feedback.encrypt (2 ^ sh) block.encrypt (m.input.length >>> sh) (firstMask block) m.input := by
  obtain ⟨hrounds, hleft, hend⟩ := parts_bounds sh m.input.length
  obtain ⟨m₁, h₁, hat₁⟩ := start_at hw h
  obtain ⟨m₂, h₂, hat₂⟩ := encRounds_at hw hat₁ hrounds
  obtain ⟨m₃, h₃, hsrc, hdst⟩ := encTail_at hw hstop hat₂ hleft hend
  refine ⟨m₃, ?_, hsrc, ?_⟩
  · rw [encryptWith, h₁, Go.ok_bind, hat₁.inputLen]
    simp only [h₂, Go.ok_bind, h₃]
  · rw [hdst, iterate_eights, iterate_encStep]
    rfl

/-- **So is the decryption.** -/
theorem decryptWith_eq (hw : block.size = 2 ^ sh) {stop : Stop} (hstop : Stops (2 ^ sh) m.input.length stop)
    (h : Fits (2 * 2 ^ sh) m) :
    ∃ m', decryptWith block sh stop m = .ok m' ∧ m'.src = m.src ∧
      m'.dst = Feedback.decrypt (2 ^ sh) block.encrypt (m.input.length >>> sh) (firstMask block) m.input := by
  obtain ⟨hrounds, hleft, hend⟩ := parts_bounds sh m.input.length
  have hbuf := h.buf
  have hfit : 2 ^ sh + 2 ^ sh ≤ m.buf.length := by omega
  have hapart : 0 + 2 ^ sh ≤ 2 ^ sh ∨ 2 ^ sh + 2 ^ sh ≤ 0 := .inl (by omega)
  obtain ⟨m₁, h₁, hat₁⟩ := start_at hw ⟨h.len, by omega⟩
  obtain ⟨m₂, h₂, hat₂⟩ := decRounds_at hw hfit hapart hat₁ hrounds
  obtain ⟨m₃, h₃, hsrc, hdst⟩ := decTail_at hw hstop hat₂ hfit hapart hleft hend
  refine ⟨m₃, ?_, hsrc, ?_⟩
  · rw [decryptWith, slice_ok (by omega) hbuf, Go.ok_bind, h₁, Go.ok_bind, hat₁.inputLen]
    simp only [h₂, Go.ok_bind, h₃]
  · rw [hdst, iterate_eights, iterate_decStep]
    rfl

end

section
variable {block : BlockCipher} {m : Mem}

/-- The shift that goes with the block size. -/
theorem encrypt_eq (h : Fits block.size m) :
    ∃ sh m', block.size = 2 ^ sh ∧ encrypt block m = .ok m' ∧ m'.src = m.src ∧
      m'.dst = Feedback.encrypt (2 ^ sh) block.encrypt (m.input.length >>> sh) (firstMask block) m.input := by
  rcases block.supported with h8 | h16
  · obtain ⟨m', hm, hsrc, hdst⟩ := encryptWith_eq (show block.size = 2 ^ 3 from h8) (stops8 _) (h8 ▸ h)
    exact ⟨3, m', h8, (if_pos h8).trans hm, hsrc, hdst⟩
  · obtain ⟨m', hm, hsrc, hdst⟩ := encryptWith_eq (show block.size = 2 ^ 4 from h16) (stops16 _ _) (h16 ▸ h)
    exact ⟨4, m', h16, (if_neg (by omega)).trans ((if_pos h16).trans hm), hsrc, hdst⟩

theorem decrypt_eq (h : Fits (2 * block.size) m) :
    ∃ sh m', block.size = 2 ^ sh ∧ decrypt block m = .ok m' ∧ m'.src = m.src ∧
      m'.dst = Feedback.decrypt (2 ^ sh) block.encrypt (m.input.length >>> sh) (firstMask block) m.input := by
  rcases block.supported with h8 | h16
  · obtain ⟨m', hm, hsrc, hdst⟩ := decryptWith_eq (show block.size = 2 ^ 3 from h8) (stops8 _) (h8 ▸ h)
    exact ⟨3, m', h8, (if_pos h8).trans hm, hsrc, hdst⟩
  · obtain ⟨m', hm, hsrc, hdst⟩ := decryptWith_eq (show block.size = 2 ^ 4 from h16) (stops16 _ _) (h16 ▸ h)
    exact ⟨4, m', h16, (if_neg (by omega)).trans ((if_pos h16).trans hm), hsrc, hdst⟩

end

/-- **The unrolled CFB code is textbook CFB, and inverts itself.** In place or
between two buffers, for every length. -/
theorem cfb_textbook (block : BlockCipher) (m : Mem) :
    (Fits block.size m → ∃ m', encrypt block m = .ok m' ∧ m'.src = m.src ∧
      Chained block.size block.encrypt (firstMask block) m.input m'.dst m'.dst ∧
      ∀ n, Fits (2 * block.size) n → n.input = m'.dst → ∃ n', decrypt block n = .ok n' ∧
        n'.src = n.src ∧ n'.dst = m.input) ∧
    (Fits (2 * block.size) m → ∃ m', decrypt block m = .ok m' ∧ m'.src = m.src ∧
      Chained block.size block.encrypt (firstMask block) m.input m'.dst m.input ∧
      ∀ n, Fits block.size n → n.input = m'.dst → ∃ n', encrypt block n = .ok n' ∧ n'.src = n.src ∧
        n'.dst = m.input) := by
  have hmask : (firstMask block).length = block.size := block.encrypt_length _
  refine ⟨fun h => ?_, fun h => ?_⟩
  · obtain ⟨sh, m', hsh, hm, hsrc, hdst⟩ := encrypt_eq h
    have hE : ∀ b, (block.encrypt b).length = 2 ^ sh := fun b => (block.encrypt_length b).trans hsh
    obtain ⟨hle, hlt⟩ := shift_bounds sh m.input.length
    have hchain := encrypt_chained hE _ (hmask.trans hsh) hle hlt
    refine ⟨m', hm, hsrc, ?_, fun n hn hin => ?_⟩
    · rw [hdst, hsh]
      exact hchain
    · obtain ⟨sh', n', hsh', hn', hsrc', hdst'⟩ := decrypt_eq hn
      obtain rfl : sh = sh' := (Nat.pow_right_inj (by decide)).mp (hsh.symm.trans hsh')
      refine ⟨n', hn', hsrc', ?_⟩
      rw [hdst', hin, hdst, hchain.length]
      exact Feedback.decrypt_encrypt hE _ (hmask.trans hsh) hle hlt
  · obtain ⟨sh, m', hsh, hm, hsrc, hdst⟩ := decrypt_eq h
    have hE : ∀ b, (block.encrypt b).length = 2 ^ sh := fun b => (block.encrypt_length b).trans hsh
    obtain ⟨hle, hlt⟩ := shift_bounds sh m.input.length
    have hchain := decrypt_chained hE _ (hmask.trans hsh) hle hlt
    refine ⟨m', hm, hsrc, ?_, fun n hn hin => ?_⟩
    · rw [hdst, hsh]
      exact hchain
    · obtain ⟨sh', n', hsh', hn', hsrc', hdst'⟩ := encrypt_eq hn
      obtain rfl : sh = sh' := (Nat.pow_right_inj (by decide)).mp (hsh.symm.trans hsh')
      refine ⟨n', hn', hsrc', ?_⟩
      rw [hdst', hin, hdst, hchain.length]
      exact Feedback.encrypt_decrypt hE _ (hmask.trans hsh) hle hlt

/-- Each byte of a block turned around, and numbered. -/
def turning : BlockCipher where
  size := 8
  encrypt b := (List.range 8).map fun i => b.getD (7 - i) 0 + UInt8.ofNat (3 * i)
  encrypt_length b := by rw [List.length_map, List.length_range]
  supported := .inl rfl

/-- Ten blocks and three bytes, in place, and back into another buffer. -/
theorem cfb_textbook_83 :
    ∃ m', encrypt turning ⟨List.replicate 83 7, none, List.replicate 8 0⟩ = .ok m' ∧
      ∃ n', decrypt turning ⟨List.replicate 83 0, some m'.dst, List.replicate 16 0⟩ = .ok n' ∧
        n'.dst = List.replicate 83 7 := by
  obtain ⟨m', hm, -, hchain, hback⟩ :=
    (cfb_textbook turning ⟨List.replicate 83 7, none, List.replicate 8 0⟩).1 ⟨rfl, by decide⟩
  obtain ⟨n', hn, -, hdst⟩ := hback ⟨List.replicate 83 0, some m'.dst, List.replicate 16 0⟩
    ⟨hchain.length.symm, Nat.le_refl 16⟩ rfl
  exact ⟨m', hm, n', hn, hdst⟩

/-! ## The functions of the bytes -/

section
variable {block : BlockCipher} {m : Mem} (hiv : block.encrypt initialVector = firstMask block)
include hiv

/-- `L1.encrypt` is what the code computes, for a cipher that reads one block. -/
theorem encrypt_bytes (h : Fits block.size m) :
    ∃ m', encrypt block m = .ok m' ∧ L1.encrypt block m.input = .ok m'.dst := by
  obtain ⟨sh, m', hsh, hm, -, hdst⟩ := encrypt_eq h
  rw [← hiv, ← encryptN_eq] at hdst
  refine ⟨m', hm, ?_⟩
  rcases block.supported with h8 | h16
  · obtain rfl : sh = 3 := (Nat.pow_right_inj (by decide)).mp (hsh.symm.trans h8)
    rw [L1.encrypt, if_pos h8, L1.encrypt8, hdst]
  · obtain rfl : sh = 4 := (Nat.pow_right_inj (by decide)).mp (hsh.symm.trans h16)
    rw [L1.encrypt, if_neg (by omega), if_pos h16, L1.encrypt16, hdst]

theorem decrypt_bytes (h : Fits (2 * block.size) m) :
    ∃ m', decrypt block m = .ok m' ∧ L1.decrypt block m.input = .ok m'.dst := by
  obtain ⟨sh, m', hsh, hm, -, hdst⟩ := decrypt_eq h
  rw [← hiv, ← decryptN_eq] at hdst
  refine ⟨m', hm, ?_⟩
  rcases block.supported with h8 | h16
  · obtain rfl : sh = 3 := (Nat.pow_right_inj (by decide)).mp (hsh.symm.trans h8)
    rw [L1.decrypt, if_pos h8, L1.decrypt8, hdst]
  · obtain rfl : sh = 4 := (Nat.pow_right_inj (by decide)).mp (hsh.symm.trans h16)
    rw [L1.decrypt, if_neg (by omega), if_pos h16, L1.decrypt16, hdst]

end

end KcpGo.L1.Cfb
