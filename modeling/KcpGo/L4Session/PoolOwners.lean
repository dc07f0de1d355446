import KcpGo.L2Machine.BuffersInput
import KcpGo.L2Machine.FecBuffersSpec
import KcpGo.L4Session.ByteStream

/-!
# Pooled buffers have one owner (`bufferpool.go`, `kcp.go`, `fec.go`, `sess.go`)

The control block and the FEC decoder of a session share `defaultBufferPool`
with everybody else: a buffer put back twice would be handed to two of them.
`run` is any sequence of calls on the control block and of `kcpInput`, with
the buffers told apart (`Buffers`, `FecBuffers`). `picks` is what the pool
hands out; a panic ends a run and leaves the books as they are.

* `Sane`: what holds between two calls; `call_sane` is the step, `run_sane`
  the run.
-/
namespace KcpGo.L4.PoolOwners

open KcpGo.L1 KcpGo.L2 KcpGo.L2.Buffers KcpGo.Ledger GoM

/-! ## `kcpInput` -/

/-- The list of recovered shards that `kcpInput` is going through. -/
def recoveredVars (recovers : List Packet) : Held := recovers.map fun r => (.recovered, r.2)

/-- The size field is read if it is there.
mirrors src/sess.go:1139-1140 -/
def readSize (recovers : List Packet) (r : Packet) : M Unit :=
  if 2 ≤ r.1.length then useBuf (recoveredVars recovers) r.2 else pure ()

/-- mirrors src/sess.go:1138-1149 -/
def inputRecovered (ackNoDelay : Bool) : (Nat → Clock) → List Packet → M Unit
  | _, [] => pure ()
  | clks, r :: recovers => do
    readSize (r :: recovers) r
    match cut r.1 with
    | none => do
      putBuf (recoveredVars (r :: recovers)) r.2
      inputRecovered ackNoDelay clks recovers
    | some b => do
      let _ ← Buffers.input (recoveredVars (r :: recovers)) (some r.2) (b.drop 2) .fec ackNoDelay (clks 0)
      putBuf (recoveredVars (r :: recovers)) r.2
      inputRecovered ackNoDelay (fun i => clks (i + 1)) recovers

/-- A session without a decoder gets one; it has no packets.
mirrors src/sess.go:1122-1124 -/
def ensureDecoder (lib : Lib) : M Unit :=
  modify fun w => match w.fec.decoder with
    | some _ => w
    | none => { w with fec := { w.fec with decoder := (newFECDecoder lib 1 1).map fun dec => ⟨dec, ∅⟩ } }

/-- mirrors src/sess.go:1129-1133 -/
def inputData (ackNoDelay : Bool) (f : Bytes) (clk : Clock) : M Unit :=
  if flag f = typeData then do
    let _ ← Buffers.input [] none (f.drop fecHeaderSizePlus2) .regular ackNoDelay clk
  else pure ()

/-- mirrors src/sess.go:1107-1165 -/
def fecInput (lib : Lib) (ackNoDelay : Bool) (f : Bytes) (clks : Nat → Clock) : M Unit :=
  if f.length < fecHeaderSizePlus2 then pure ()
  else do
    ensureDecoder lib
    inputData ackNoDelay f (clks 0)
    let recovers ← Buffers.decode [] lib f
    inputRecovered ackNoDelay (fun i => clks (i + 1)) recovers

/-- mirrors src/sess.go:1098-1193 (`kcpInput`) -/
def kcpInput (lib : Lib) (callbackForOOB ackNoDelay : Bool) (data : Bytes) (clks : Nat → Clock) : M Unit :=
  if data.length < 6 then throw .sliceBounds
  else if flag data = typeData ∨ flag data = typeParity then fecInput lib ackNoDelay data clks
  else if flag data = typeOOB then
    if callbackForOOB = true ∧ data.length < fecHeaderSizePlus2 + convSize then throw .sliceBounds else pure ()
  else do
    let _ ← Buffers.input [] none data .regular ackNoDelay (clks 0)

/-! ## Runs -/

inductive Call where
  | kcp (op : Op)
  | kcpInput (callbackForOOB ackNoDelay : Bool) (data : Bytes) (clks : Nat → Clock)

def call (lib : Lib) : Call → M Unit
  | .kcp op => do
    let _ ← Buffers.step op
  | .kcpInput callback nd data clks => kcpInput lib callback nd data clks

def run (lib : Lib) : List Call → M Unit
  | [] => pure ()
  | c :: calls => do
    call lib c
    run lib calls

/-- A new session; nothing is out.
mirrors src/sess.go:201-292 (`newUDPSession`) -/
def start (lib : Lib) (conv : UInt32) (dataShards parityShards : Nat) (picks : Nat → Nat) : World where
  ctl := newKCP conv
  sndQueue := []
  sndBuf := []
  rcvBuf := []
  rcvQueue := []
  fec := ⟨(newFECDecoder lib dataShards parityShards).map fun dec => ⟨dec, ∅⟩, []⟩
  books := ⟨∅, picks, []⟩

/-- Between two calls no variable holds a buffer. -/
structure Sane (w : World) : Prop where
  good : Good [] w
  decode : w.fec.decode = []
  codec : ∀ d, w.fec.decoder = some d → InPlace d.dec.codec

section
variable {lib : Lib} {w : World}

theorem Sane.of_fec {w' : World} (h : Sane w) (hg : Good [] w') (hf : w'.fec = w.fec) : Sane w' :=
  ⟨hg, hf ▸ h.decode, hf ▸ h.codec⟩

theorem Sane.at_decoder {d : DecoderCells} (h : Sane w) (hd : w.fec.decoder = some d) :
    w = w.fecAt ⟨some d, []⟩ w.books ∧ Good [] (w.fecAt ⟨some d, []⟩ w.books) := by
  have hfec : w.fec = ⟨some d, []⟩ := by
    rw [← hd, ← h.decode]
  have hw : w = w.fecAt ⟨some d, []⟩ w.books := by
    rw [← hfec]
    rfl
  exact ⟨hw, hw ▸ h.good⟩

theorem newFECDecoder_inPlace (hlib : LibInPlace lib) {ds ps : Nat} {dec : FecDecoder}
    (h : newFECDecoder lib ds ps = some dec) :
    InPlace dec.codec := by
  unfold newFECDecoder at h
  split at h
  · cases h
  split at h
  · cases h
  obtain ⟨c, hc, rfl⟩ := Option.map_eq_some_iff.1 h
  exact hlib ds ps c hc

theorem start_sane (hlib : LibInPlace lib) (conv : UInt32) (ds ps : Nat) (picks : Nat → Nat) :
    Sane (start lib conv ds ps picks) where
  good := by
    have hfec : (start lib conv ds ps picks).owned = [] := by
      show heldFec ⟨(newFECDecoder lib ds ps).map fun dec => ⟨dec, ∅⟩, []⟩ = []
      cases newFECDecoder lib ds ps <;> rfl
    show Kept ((start lib conv ds ps picks).owned ++ []) _
    rw [hfec]
    exact Kept.new picks
  decode := rfl
  codec := by
    intro d hd
    obtain ⟨dec, hdec, rfl⟩ := Option.map_eq_some_iff.1 hd
    exact newFECDecoder_inPlace hlib hdec

theorem holders_recovered (r : Packet) (rs : List Packet) (b : Nat) :
    holders (recoveredVars (r :: rs)) b = holders (recoveredVars rs) b + if r.2 = b then 1 else 0 := holders_cons _ _ _

/-- A recovered shard is put back once it has been read. -/
theorem wp_putRecovered {r : Packet} {rs : List Packet} (h : Good (recoveredVars (r :: rs)) w)
    {E : Panic → World → Prop}
    {Q : Unit → World → Prop} (hQ : ∀ bk, Good (recoveredVars rs) (w.keep bk) → Q () (w.keep bk)) :
    wp (putBuf (recoveredVars (r :: rs)) r.2) E Q w :=
  wp_putBuf h fun bk hbk => hQ bk <| hbk (w.keep bk) _ rfl fun c => by
    rw [holders_append, holders_append, holders_recovered, World.keep_owned]
    omega

theorem inputRecovered_spec (nd : Bool) :
    ∀ (rs : List Packet) (clks : Nat → Clock) {w : World}, Good (recoveredVars rs) w →
    wp (inputRecovered nd clks rs) (fun _ w' => w'.books.Clean) (fun _ w' => Good [] w' ∧ w'.fec = w.fec) w := by
  intro rs
  induction rs with
  | nil => exact fun clks w h => ⟨h, rfl⟩
  | cons r rs ih =>
    intro clks w h
    have hheld : 0 < holders (recoveredVars (r :: rs)) r.2 := by
      rw [holders_recovered, if_pos rfl]
      omega
    -- reading the size changes only the books
    suffices hrest : ∀ bk, Good (recoveredVars (r :: rs)) (w.keep bk) → wp (do
        match cut r.1 with
        | none => do
          putBuf (recoveredVars (r :: rs)) r.2
          inputRecovered nd clks rs
        | some b => do
          let _ ← Buffers.input (recoveredVars (r :: rs)) (some r.2) (b.drop 2) .fec nd (clks 0)
          putBuf (recoveredVars (r :: rs)) r.2
          inputRecovered nd (fun i => clks (i + 1)) rs)
        (fun _ w' => w'.books.Clean) (fun _ w' => Good [] w' ∧ w'.fec = w.fec) (w.keep bk) by
      rw [inputRecovered, readSize]
      refine (wp_bind _ _).2 ?_
      split
      · exact wp_useSegBuf h (Nat.add_pos_right _ hheld) fun bk hg => hrest bk hg
      · exact hrest w.books h
    intro bk hg
    cases cut r.1 with
    | none => exact (wp_bind _ _).2 <| wp_putRecovered hg fun bk' hg' => ih clks hg'
    | some b =>
      have hsrc : ∀ c, some r.2 = some c → 0 < holders (recoveredVars (r :: rs)) c := by
        intro c hc
        obtain rfl := Option.some.inj hc
        exact hheld
      dsimp only
      refine (wp_bind _ _).2 <| wp_mono (input_refines hsrc (b.drop 2) .fec nd (clks 0) hg)
        (fun e s he => he.1) fun _ s hs => ?_
      refine (wp_bind _ _).2 <| wp_putRecovered hs.1 fun bk' hg' => ?_
      exact wp_mono (ih _ hg') (fun e s he => he) fun _ s' hs' => ⟨hs'.1, hs'.2.trans hs.2.1⟩

theorem kcpIn_sane {data : Bytes} {nd : Bool} {clk : Clock} {pkt : PacketType} (h : Sane w) :
    wp (Buffers.input [] none data pkt nd clk) (fun _ w' => w'.books.Clean) (fun _ w' => Sane w') w := by
  have hsrc : ∀ b, (none : Option Nat) = some b → 0 < holders ([] : Held) b := fun b hb => nomatch hb
  exact wp_mono (input_refines hsrc data pkt nd clk h.good) (fun e s he => he.1) fun _ s hs => h.of_fec hs.1 hs.2.1

theorem ensureDecoder_sane (hlib : LibInPlace lib) (h : Sane w) :
    wp (ensureDecoder lib) (fun _ w' => w'.books.Clean) (fun _ w' => Sane w') w := by
  refine (wp_modify _).2 ?_
  cases hd : w.fec.decoder with
  | some d => exact h
  | none =>
    refine ⟨?_, h.decode, fun d hd' => ?_⟩
    · have hw : Good [] (w.fecAt w.fec w.books) := h.good
      refine hw.fec fun b => ?_
      rw [heldFec, heldFec, hd]
      cases newFECDecoder lib 1 1 <;> rfl
    · obtain ⟨dec, hdec, rfl⟩ := Option.map_eq_some_iff.1 hd'
      exact newFECDecoder_inPlace hlib hdec

theorem decode_sane (hlib : LibInPlace lib) {f : Bytes} (h : Sane w) :
    wp (Buffers.decode [] lib f) (fun _ w' => w'.books.Clean)
      (fun r w' => Good (recoveredVars r) w' ∧ w'.fec.decode = [] ∧ ∀ d, w'.fec.decoder = some d →
        InPlace d.dec.codec) w := by
  cases hd : w.fec.decoder with
  | none =>
    unfold Buffers.decode decodeBody getDec
    refine (wp_bind _ _).2 <| (wp_bind _ _).2 <| (wp_bind _ _).2 <| wp_get.2 ?_
    rw [hd]
    exact h.good.clean
  | some d =>
    obtain ⟨hw, hg⟩ := h.at_decoder hd
    have hdec := decode_spec hlib (h.codec d hd) f hg
    rw [← hw] at hdec
    refine wp_mono hdec (fun e s he => he.1) fun r s hs => ?_
    obtain ⟨d', bk', rfl, hg', hc, -⟩ := hs
    refine ⟨?_, rfl, fun d₁ hd₁ => ?_⟩
    · rw [List.append_nil] at hg'
      exact hg'
    · obtain rfl := Option.some.inj hd₁
      exact hc

theorem fecInput_sane (hlib : LibInPlace lib) {nd : Bool} {f : Bytes} {clks : Nat → Clock} (h : Sane w) :
    wp (fecInput lib nd f clks) (fun _ w' => w'.books.Clean) (fun _ w' => Sane w') w := by
  unfold fecInput
  split
  · exact h
  refine (wp_bind _ _).2 <| wp_mono (ensureDecoder_sane hlib h) (fun e s he => he) fun _ w₁ h₁ => (wp_bind _ _).2 ?_
  have hdata : wp (inputData nd f (clks 0)) (fun _ w' => w'.books.Clean) (fun _ w' => Sane w') w₁ := by
    unfold inputData
    split
    · exact (wp_bind _ _).2 <| wp_mono (kcpIn_sane h₁) (fun e s he => he) fun _ s hs => hs
    · exact h₁
  refine wp_mono hdata (fun e s he => he) fun _ w₂ h₂ => (wp_bind _ _).2 ?_
  refine wp_mono (decode_sane hlib h₂) (fun e s he => he) fun r w₃ h₃ => ?_
  refine wp_mono (inputRecovered_spec nd r _ h₃.1) (fun e s he => he) fun _ w₄ h₄ => ?_
  exact ⟨h₄.1, h₄.2 ▸ h₃.2.1, h₄.2 ▸ h₃.2.2⟩

theorem kcpInput_sane (hlib : LibInPlace lib) {callback nd : Bool} {data : Bytes} {clks : Nat → Clock} (h : Sane w) :
    wp (kcpInput lib callback nd data clks) (fun _ w' => w'.books.Clean) (fun _ w' => Sane w') w := by
  unfold kcpInput
  split
  · exact h.good.clean
  split
  · exact fecInput_sane hlib h
  split
  · split
    · exact h.good.clean
    · exact h
  · exact (wp_bind _ _).2 <| wp_mono (kcpIn_sane h) (fun e s he => he) fun _ s hs => hs

theorem call_sane (hlib : LibInPlace lib) (c : Call) (h : Sane w) :
    wp (call lib c) (fun _ w' => w'.books.Clean) (fun _ w' => Sane w') w := by
  cases c with
  | kcp op =>
    exact (wp_bind _ _).2 <| wp_mono (step_refines op h.good) (fun e s he => he.1) fun _ s hs => h.of_fec hs.1 hs.2.1
  | kcpInput callback nd data clks => exact kcpInput_sane hlib h

theorem run_sane (hlib : LibInPlace lib) : ∀ (calls : List Call) {w : World}, Sane w →
    wp (run lib calls) (fun _ w' => w'.books.Clean) (fun _ w' => Sane w') w := by
  intro calls
  induction calls with
  | nil => exact fun h => h
  | cons c calls ih =>
    intro w h
    exact (wp_bind _ _).2 <| wp_mono (call_sane hlib c h) (fun e s he => he) fun _ s hs => ih hs

/-- **One owner.** Whatever is called and whatever the pool hands out: every
act of the run found what is out of the pool in exactly one place, only what
is in the pool was handed out and only what is out was put back, read or
written; between a `Put` of a buffer and the next `Put`, read or write of it
there is a `Get`; and after a run that returns, every buffer is in the pool or
in exactly one place of the session. -/
theorem buffers_have_one_owner (hlib : LibInPlace lib) (conv : UInt32)
    (dataShards parityShards : Nat) (picks : Nat → Nat)
    (calls : List Call) :
    let fresh := start lib conv dataShards parityShards picks
    let books := ((run lib calls).final fresh).books
    books.Clean ∧
    (∀ pre b mid a post, books.acts = pre ++ .put b :: mid ++ a :: post → a = .put b ∨ a = .use b → .get b ∈ mid) ∧
    ∀ w, (run lib calls).run fresh = .ok () w → Balanced w.owned w.books.out := by
  have hrun := run_sane hlib calls (start_sane hlib conv dataShards parityShards picks)
  have hclean : ((run lib calls).final (start lib conv dataShards parityShards picks)).books.Clean :=
    wp_final <| wp_mono hrun (fun e s he => he) fun _ s hs => hs.good.clean
  refine ⟨hclean, fun pre b mid a post hl ha => hclean.got_between hl ha, fun w hw => ?_⟩
  have hs : Sane w := by
    unfold wp at hrun
    rw [hw] at hrun
    exact hrun
  have hb := hs.good.balanced
  rwa [List.append_nil] at hb

theorem copies_inPlace : LibInPlace copies := by
  intro ds ps c hc got out ho
  cases hc
  unfold Codec.repetition at ho
  dsimp only at ho
  cases got with
  | nil => cases ho
  | cons s got =>
    split at ho
    · cases ho
    · cases ho
      rfl

end

/-- The parity packet of a group of one: its shard holds one segment. -/
def parityPacket : Bytes :=
  [1, 0, 0, 0, 0xf2, 0, 27, 0, 7, 0, 0, 0, 81, 0, 32, 0, 0, 0, 0, 0, 0, 0, 0, 0, 0, 0, 0, 0, 1, 0, 0, 0, 97]

/-- A packet that recovers another, and the read of what that one carried. -/
def recovering : List Call := [.kcpInput false false parityPacket fun _ _ => 0, .kcp (.recv 10)]

/-- The pool hands buffer 0 out again once the parity packet is done with. -/
theorem buffers_have_one_owner_recovering :
    let fresh := start copies 7 1 1 fun _ => 0
    let books := ((run copies recovering).final fresh).books
    books.acts = [.get 0, .use 0, .use 0, .get 1, .use 0, .use 0, .use 1, .put 0, .use 1, .use 1, .get 0,
      .use 1, .use 0, .put 1,
      .use 0, .put 0] ∧
    books.Clean ∧
    (∀ pre b mid a post, books.acts = pre ++ .put b :: mid ++ a :: post → a = .put b ∨ a = .use b → .get b ∈ mid) ∧
    ∀ w, (run copies recovering).run fresh = .ok () w → Balanced w.owned w.books.out :=
  ⟨by decide +kernel, buffers_have_one_owner copies_inPlace 7 1 1 (fun _ => 0) recovering⟩

end KcpGo.L4.PoolOwners
