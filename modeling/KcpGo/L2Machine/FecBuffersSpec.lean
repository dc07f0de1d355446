import KcpGo.L2Machine.FecBuffers

/-!
# The decoder keeps its buffers
-/
namespace KcpGo.L2.Buffers

open KcpGo.L1 KcpGo.Ledger GoM

/-! ## What is held -/

theorem holders_flatMap {α : Type} (f : α → Held) (l : List α) (b : Nat) :
    holders (l.flatMap f) b = (l.map fun a => holders (f a) b).sum := by
  induction l with
  | nil => rfl
  | cons a l ih => rw [List.flatMap_cons, holders_append, ih, List.map_cons, List.sum_cons]

theorem holders_map (p : Place) (l : List Nat) (b : Nat) : holders (l.map fun b => (p, b)) b = l.count b := by
  rw [holders, List.countP_map]
  rfl

/-- How many packets of the sets lie in the buffer. -/
def inSets (t : Table UInt32 ShardCells) (b : Nat) : Nat := t.total fun s => s.bufs.count b

theorem holders_decoder (d : DecoderCells) (b : Nat) : holders d.owned b = inSets d.shardSet b := by
  rw [DecoderCells.owned, holders_flatMap]
  refine congrArg List.sum (List.map_congr_left fun e _ => ?_)
  show _ = e.2.bufs.count b
  rw [← holders_map (.shard e.1), ShardCells.bufs, List.map_map]
  rfl

theorem inSets_insert (t : Table UInt32 ShardCells) (id : UInt32) (s : ShardCells) (b : Nat) :
    inSets (t.insert id s) b + ((t.lookup id).map fun s => s.bufs.count b).getD 0 = inSets t b + s.bufs.count b :=
  Table.total_insert _ _ _ _

theorem count_packetsOf (t : Table UInt32 ShardCells) (b : Nat) : (packetsOf t).count b = inSets t b :=
  List.count_flatMap

theorem holders_fec (d : DecoderCells) (dc : List Nat) (b : Nat) :
    holders (heldFec ⟨some d, dc⟩) b = inSets d.shardSet b + dc.count b := by
  rw [heldFec, holders_append, holders_map]
  exact congrArg (· + _) (holders_decoder d b)

/-- Only the decoder and the books changed. -/
def World.fecAt (w : World) (f : FecCells) (bk : Books Place) : World := { w with fec := f, books := bk }

section
variable {vars vars' : Held} {w : World} {bk : Books Place} {E : Panic → World → Prop}
variable {d : DecoderCells} {Q : Unit → World → Prop}

theorem Good.fec {f f' : FecCells} (h : Good vars (w.fecAt f bk))
    (he : ∀ b, holders (heldFec f') b + holders vars' b = holders (heldFec f) b + holders vars b) :
    Good vars' (w.fecAt f' bk) := by
  have hk : Kept ((w.fecAt f' bk).owned ++ vars') bk := Kept.move h fun b => by
    rw [holders_world, holders_world]
    show w.segs b + holders (heldFec f') b + _ = w.segs b + holders (heldFec f) b + _
    have := he b
    omega
  exact hk

theorem wp_getDec {dc : List Nat} {Q : DecoderCells → World → Prop} (hQ : Q d (w.fecAt ⟨some d, dc⟩ bk)) :
    wp getDec E Q (w.fecAt ⟨some d, dc⟩ bk) := hQ

theorem wp_setDec {f : FecCells} {taken : List Nat}
    (hQ : Q () (w.fecAt ⟨some d, f.decode ++ taken⟩ bk)) : wp (setDec d taken) E Q (w.fecAt f bk) := hQ

/-- A buffer that the call has in a variable may be read. -/
theorem wp_useDecode {f : FecCells} {b : Nat} (h : Good vars (w.fecAt f bk)) (hb : b ∈ f.decode)
    (hQ : ∀ bk', Good vars (w.fecAt f bk') → Q () (w.fecAt f bk')) : wp (useBuf vars b) E Q (w.fecAt f bk) := by
  refine wp_useBuf h ?_ fun bk' hg => hQ bk' hg
  have hpos : 0 < f.decode.count b := List.count_pos_iff.2 hb
  have : f.decode.count b ≤ holders (heldFec f) b := by
    rw [heldFec, holders_append, holders_map]
    omega
  rw [holders_world]
  show 0 < w.segs b + holders (heldFec f) b + holders vars b
  omega

theorem wp_useEach {f : FecCells} : ∀ (bs : List Nat) {bk : Books Place}, Good vars (w.fecAt f bk) →
    (∀ b ∈ bs, b ∈ f.decode) → (∀ bk', Good vars (w.fecAt f bk') → Q () (w.fecAt f bk')) →
      wp (useEach vars bs) E Q (w.fecAt f bk) := by
  intro bs
  induction bs with
  | nil => exact fun h _ hQ => hQ _ h
  | cons b bs ih =>
    intro bk h hb hQ
    rw [useEach]
    refine (wp_bind _ _).2 <| wp_useDecode h (hb b List.mem_cons_self) fun bk' hg => ?_
    exact ih hg (fun c hc => hb c (List.mem_cons_of_mem _ hc)) hQ

theorem count_erase_add {l : List Nat} {b c n : Nat} (h : n + (if b = c then 1 else 0) ≤ l.count c) :
    (l.erase b).count c + (if b = c then 1 else 0) = l.count c := by
  rw [List.count_erase]
  by_cases hbc : b = c
  · rw [if_pos hbc] at h
    rw [if_pos hbc, if_pos (beq_iff_eq.2 hbc)]
    omega
  · rw [if_neg hbc, if_neg fun he => hbc (beq_iff_eq.1 he)]
    rfl

theorem wp_putDecode : ∀ (bs : List Nat) {f : FecCells} {bk : Books Place},
    Good vars (w.fecAt f bk) → (∀ b, bs.count b ≤ f.decode.count b) →
    (∀ bk', Good vars (w.fecAt ⟨f.decoder, f.decode.diff bs⟩ bk') → Q () (w.fecAt ⟨f.decoder, f.decode.diff bs⟩ bk')) →
      wp (putDecode vars bs) E Q (w.fecAt f bk) := by
  intro bs
  induction bs with
  | nil => exact fun h _ hQ => hQ _ h
  | cons b bs ih =>
    intro f bk h hb hQ
    rw [putDecode]
    refine (wp_bind _ _).2 <| wp_putBuf h fun bk' hbk => (wp_bind _ _).2 <| (wp_modify _).2 ?_
    have hbs : ∀ c, bs.count c + (if b = c then 1 else 0) ≤ f.decode.count c := by
      intro c
      have := hb c
      rw [List.count_cons] at this
      simpa using this
    have hgood : Good vars (w.fecAt ⟨f.decoder, f.decode.erase b⟩ bk') := by
      refine hbk _ _ rfl fun c => ?_
      rw [holders_world, holders_world]
      show w.segs c + holders (heldFec f) c + _ = w.segs c + holders (heldFec ⟨f.decoder, f.decode.erase b⟩) c + _ + _
      have hc := hbs c
      have he := count_erase_add hc
      rw [heldFec, heldFec, holders_append, holders_append, holders_map, holders_map]
      dsimp only at he ⊢
      omega
    refine ih hgood (fun c => ?_) fun bk'' hg => ?_
    · have hc := hbs c
      have he := count_erase_add hc
      show _ ≤ (f.decode.erase b).count c
      omega
    · have hQ' := hQ bk''
      rw [List.diff_cons] at hQ'
      exact hQ' hg

/-! ## Sets that are dropped -/

def DecoderCells.discard (d : DecoderCells) : DecoderCells :=
  { d with shardSet := d.shardSet.keep fun id => !d.dec.stale id }

theorem DecoderCells.plain_discard (d : DecoderCells) : d.discard.plain = d.plain.discardShards := by
  unfold DecoderCells.plain DecoderCells.discard FecDecoder.discardShards
  dsimp only
  rw [Table.map_keep]
  rfl

theorem wp_discardShards {dc : List Nat} (h : Good vars (w.fecAt ⟨some d, dc⟩ bk))
    (hQ : ∀ dc' bk', (∀ b, dc'.count b = dc.count b) → Good vars (w.fecAt ⟨some d.discard, dc'⟩ bk') →
      Q () (w.fecAt ⟨some d.discard, dc'⟩ bk')) : wp (discardShards vars) E Q (w.fecAt ⟨some d, dc⟩ bk) := by
  unfold discardShards
  refine (wp_bind _ _).2 <| wp_getDec <| (wp_bind _ _).2 <| wp_setDec ?_
  have hold : ∀ b, (packetsOf (d.shardSet.keep fun id => d.dec.stale id)).count b + inSets d.discard.shardSet b =
      inSets d.shardSet b := by
    intro b
    rw [count_packetsOf, Nat.add_comm]
    exact Table.total_keep _ _ _
  generalize packetsOf (d.shardSet.keep fun id => d.dec.stale id) = old at hold
  have hg : Good vars (w.fecAt ⟨some d.discard, dc ++ old⟩ bk) := h.fec fun b => by
    rw [holders_fec, holders_fec, List.count_append, ← hold b]
    omega
  refine wp_putDecode old hg (fun b => ?_) fun bk' hg' => hQ _ _ (fun b => ?_) hg'
  · rw [List.count_append]
    omega
  · dsimp only
    rw [List.count_diff, List.count_append]
    omega

theorem wp_retune (lib : Lib) (ds ps : Nat) (id : UInt32) (h : Good vars (w.fecAt ⟨some d, []⟩ bk))
    
    (hQ : ∀ dc' bk', (∀ b, dc'.count b = 0) → Good vars (w.fecAt ⟨some ⟨d.dec.retune lib ds ps id, ∅⟩, dc'⟩ bk') →
      Q () (w.fecAt ⟨some ⟨d.dec.retune lib ds ps id, ∅⟩, dc'⟩ bk')) :
    wp (retune vars lib ds ps id) E Q (w.fecAt ⟨some d, []⟩ bk) := by
  unfold retune
  refine (wp_bind _ _).2 <| wp_getDec <| (wp_bind _ _).2 <| wp_setDec <| (wp_bind _ _).2 ?_
  have hg : Good vars (w.fecAt ⟨some { d with shardSet := ∅ }, [] ++ packetsOf d.shardSet⟩ bk) := h.fec fun b => by
    rw [holders_fec, holders_fec, List.nil_append, count_packetsOf, List.count_nil]
    show 0 + _ + _ = _
    omega
  refine wp_putDecode (packetsOf d.shardSet) hg (fun b => ?_) fun bk' hg' => wp_setDec ?_
  · rw [List.nil_append]
  · refine hQ _ _ (fun b => ?_) (hg'.fec fun b => ?_)
    · dsimp only
      rw [List.append_nil, List.count_diff, List.nil_append]
      omega
    · dsimp only
      rw [List.append_nil, holders_fec, holders_fec]

theorem DecoderCells.plain_retune (d : DecoderCells) (lib : Lib) (ds ps : Nat) (id : UInt32) :
    (⟨d.dec.retune lib ds ps id, ∅⟩ : DecoderCells).plain = d.plain.retune lib ds ps id := by
  unfold DecoderCells.plain FecDecoder.retune
  cases lib.newCodec ds ps <;> rfl

theorem wp_tune (lib : Lib) (id : UInt32) (h : Good vars (w.fecAt ⟨some d, []⟩ bk))
    (hQ : ∀ d' dc' bk', (∀ b, dc'.count b = 0) → Good vars (w.fecAt ⟨some d', dc'⟩ bk') →
      d'.plain = d.plain.tune lib id →
      Q () (w.fecAt ⟨some d', dc'⟩ bk')) :
    wp (tune vars lib id) E Q (w.fecAt ⟨some d, []⟩ bk) := by
  unfold tune
  refine (wp_bind _ _).2 <| wp_getDec ?_
  have hp : d.plain.tune lib id = if 0 < d.dec.autoTune.findPeriod lib.sort true ∧
    0 < d.dec.autoTune.findPeriod lib.sort false ∧
        d.dec.autoTune.findPeriod lib.sort true + d.dec.autoTune.findPeriod lib.sort false ≤ 256 then
      if d.dec.autoTune.findPeriod lib.sort true ≠ d.dec.dataShards ∨
        d.dec.autoTune.findPeriod lib.sort false ≠ d.dec.parityShards then
        d.plain.retune lib (d.dec.autoTune.findPeriod lib.sort true).toNat
          (d.dec.autoTune.findPeriod lib.sort false).toNat id
      else { d.plain with shouldTune := false }
    else d.plain := rfl
  dsimp only
  split
  · rename_i hok
    rw [if_pos hok] at hp
    split
    · rename_i hne
      rw [if_pos hne] at hp
      exact wp_retune lib _ _ id h fun dc' bk' hdc hg => hQ _ dc' bk' hdc hg ((d.plain_retune lib _ _ id).trans hp.symm)
    · rename_i hne
      rw [if_neg hne] at hp
      exact wp_setDec <| hQ _ _ _ (fun b => rfl) (h.fec fun b => rfl) hp.symm
  · rename_i hok
    rw [if_neg hok] at hp
    exact hQ d _ _ (fun b => rfl) h hp.symm

/-! ## Recovery -/

/-- The state at a panic: `taken` is still in variables of the call. -/
def Broken (vars : Held) (w : World) (taken : List Nat) (s : World) : Prop :=
  ∃ d dc bk, s = w.fecAt ⟨some d, dc⟩ bk ∧ Good vars s ∧ ∀ b, taken.count b ≤ dc.count b

theorem popShard_plain (dec : FecDecoder) (x : PoppedCells) (pkt : Packet) :
    (popShard dec x pkt).map PoppedCells.plain = dec.popShard x.plain pkt.1 := by
  unfold popShard FecDecoder.popShard
  dsimp only
  split
  · rfl
  · refine congrArg Except.ok ?_
    simp [PoppedCells.plain, List.map_set]

theorem popShard_bufs {dec : FecDecoder} {x x' : PoppedCells} {pkt : Packet} (h : popShard dec x pkt = .ok x') :
    ∀ b ∈ x'.bufs, b ∈ x.bufs ∨ b = pkt.2 := by
  unfold popShard at h
  dsimp only at h
  split at h
  · cases h
  cases h
  intro b hb
  obtain ⟨s, hs, hsb⟩ := List.mem_filterMap.1 hb
  rcases List.mem_or_eq_of_mem_set hs with hs | rfl
  · exact .inl (List.mem_filterMap.2 ⟨s, hs, hsb⟩)
  · exact .inr (Option.some.inj hsb).symm

theorem popLoop_spec (dec : FecDecoder) (t : Table UInt32 ShardCells) (shardId : UInt32) :
    ∀ (l : List Packet) (m : Finset UInt32) (dc : List Nat) (x : PoppedCells) {bk : Books Place},
      Good vars (w.fecAt ⟨some ⟨dec, t.insert shardId ⟨l.reverse, m⟩⟩, dc⟩ bk) →
      wp (popLoop vars shardId l x)
        (fun e s => Broken vars w [] s ∧ (l.map Prod.fst).foldlM dec.popShard x.plain = .error e)
        (fun x' s => (∃ bk', s = w.fecAt ⟨some ⟨dec, t.insert shardId
            ⟨[], l.foldl (fun m pkt => m.erase (seqid pkt.1)) m⟩⟩, dc ++ l.map Prod.snd⟩ bk') ∧ Good vars s ∧
          (l.map Prod.fst).foldlM dec.popShard x.plain = .ok x'.plain ∧ ∀ b ∈ x'.bufs, b ∈ x.bufs ∨ b ∈ l.map Prod.snd)
        (w.fecAt ⟨some ⟨dec, t.insert shardId ⟨l.reverse, m⟩⟩, dc⟩ bk) := by
  intro l
  induction l with
  | nil =>
    intro m dc x bk h
    rw [popLoop]
    refine ⟨⟨bk, ?_⟩, h, rfl, fun b hb => .inl hb⟩
    rw [List.map_nil, List.append_nil]
    rfl
  | cons pkt rest ih =>
    intro m dc x bk h
    rw [popLoop]
    refine (wp_bind _ _).2 <| wp_getDec <| (wp_bind _ _).2 <| wp_setDec ?_
    dsimp only
    rw [AList.lookup_insert, AList.insert_insert, Option.getD_some]
    have hg : Good vars (w.fecAt ⟨some ⟨dec, t.insert shardId ⟨rest.reverse, m.erase (seqid pkt.1)⟩⟩,
      dc ++ [pkt.2]⟩ bk) :=
      h.fec fun b => by
        have h1 := inSets_insert t shardId ⟨rest.reverse, m.erase (seqid pkt.1)⟩ b
        have h2 := inSets_insert t shardId ⟨(pkt :: rest).reverse, m⟩ b
        have hc : (⟨(pkt :: rest).reverse, m⟩ : ShardCells).bufs.count b =
            (⟨rest.reverse, m.erase (seqid pkt.1)⟩ : ShardCells).bufs.count b + [pkt.2].count b := by
          simp only [ShardCells.bufs, List.reverse_cons, List.map_append, List.count_append,
            List.map_cons, List.map_nil]
        rw [holders_fec, holders_fec, List.count_append]
        dsimp only
        omega
    refine (wp_bind _ _).2 <| wp_useDecode hg (List.mem_append_right _ (List.mem_singleton.2 rfl)) fun bk' hg' => ?_
    have hpop := popShard_plain dec x pkt
    refine (wp_bind _ _).2 <| (wp_call _).2 ⟨fun x₁ hx => ?_, fun e he => ?_⟩
    · rw [hx] at hpop
      have hbufs := popShard_bufs hx
      refine wp_mono (ih (m.erase (seqid pkt.1)) (dc ++ [pkt.2]) x₁ hg') (fun e s he => ?_) fun x' s hs => ?_
      · rw [List.map_cons, List.foldlM_cons, ← hpop]
        exact he
      · obtain ⟨⟨bk'', hs'⟩, hgood, hfold, hin⟩ := hs
        refine ⟨⟨bk'', ?_⟩, hgood, ?_, fun b hb => ?_⟩
        · rw [hs', List.append_assoc]
          rfl
        · rw [List.map_cons, List.foldlM_cons, ← hpop]
          exact hfold
        · rw [List.map_cons, List.mem_cons]
          rcases hin b hb with hb | hb
          · exact (hbufs b hb).imp_right .inl
          · exact .inr (.inr hb)
    · rw [he] at hpop
      refine ⟨⟨_, _, _, rfl, hg', fun b => Nat.zero_le _⟩, ?_⟩
      rw [List.map_cons, List.foldlM_cons, ← hpop]
      rfl

/-- The buffers that the lost shards among the first `dataShards` get. -/
def lost (dataShards : Nat) (cache : List (Option Packet)) : Nat := (cache.take dataShards).countP Option.isNone

theorem lost_some (n k : Nat) (s : Packet) (cache : List (Option Packet)) :
    lost (n - k) (some s :: cache) = lost (n - (k + 1)) cache := by
  unfold lost
  rw [Nat.sub_add_eq]
  cases n - k with
  | zero => rfl
  | succ m => simp

theorem lost_none {n k : Nat} (h : k < n) (cache : List (Option Packet)) :
    lost (n - k) (none :: cache) = lost (n - (k + 1)) cache + 1 := by
  unfold lost
  obtain ⟨m, hm⟩ : ∃ m, n - k = m + 1 := ⟨n - k - 1, by omega⟩
  rw [Nat.sub_add_eq, hm]
  simp

theorem fillLoop_spec {d : Option DecoderCells} (maxlen dataShards : Nat) :
    ∀ (cache : List (Option Packet)) (k : Nat) (dc : List Nat) {bk : Books Place},
      Good vars (w.fecAt ⟨d, dc⟩ bk) → (∀ b ∈ cache.filterMap (Option.map Prod.snd), b ∈ dc) →
      wp (fillLoop vars maxlen dataShards k cache)
        (fun e s => (∃ more bk', s = w.fecAt ⟨d, dc ++ more⟩ bk') ∧ Good vars s ∧
          (cache.map (Option.map Prod.fst)).mapM (FecDecoder.fillUp maxlen) = .error e)
        (fun r s => (∃ bk', s = w.fecAt ⟨d, dc ++ r.2⟩ bk') ∧ Good vars s ∧
          (cache.map (Option.map Prod.fst)).mapM (FecDecoder.fillUp maxlen) = .ok r.1 ∧
            r.2.length = lost (dataShards - k) cache)
        (w.fecAt ⟨d, dc⟩ bk) := by
  intro cache
  induction cache with
  | nil =>
    intro k dc bk h _
    rw [fillLoop]
    refine ⟨⟨bk, ?_⟩, h, rfl, ?_⟩
    · rw [List.append_nil]
    · rw [lost, List.take_nil]
      rfl
  | cons c cache ih =>
    intro k dc bk h hin
    cases c with
    | some s =>
      rw [fillLoop]
      refine (wp_bind _ _).2 <| (wp_call _).2 ⟨fun filled hf => ?_, fun e he => ?_⟩
      · refine (wp_bind _ _).2 <| wp_useDecode h (hin _ List.mem_cons_self) fun bk' hg => (wp_bind _ _).2 ?_
        refine wp_mono (ih (k + 1) dc hg fun b hb => hin b (List.mem_cons_of_mem _ hb))
          (fun e st he => ?_) fun r st hr => ?_
        · refine ⟨he.1, he.2.1, ?_⟩
          rw [List.map_cons, List.mapM_cons, Option.map_some, hf, Go.ok_bind, he.2.2]
          rfl
        · refine ⟨hr.1, hr.2.1, ?_, ?_⟩
          · rw [List.map_cons, List.mapM_cons, Option.map_some, hf, Go.ok_bind, hr.2.2.1]
            rfl
          · rw [lost_some]
            exact hr.2.2.2
      · refine ⟨⟨[], bk, ?_⟩, h, ?_⟩
        · rw [List.append_nil]
        · rw [List.map_cons, List.mapM_cons, Option.map_some, he]
          rfl
    | none =>
      have hmap : (((none : Option Packet) :: cache).map (Option.map Prod.fst)).mapM (FecDecoder.fillUp maxlen) =
          (cache.map (Option.map Prod.fst)).mapM (FecDecoder.fillUp maxlen) >>= fun l => .ok ([] :: l) := by
        rw [List.map_cons, List.mapM_cons]
        rfl
      rw [fillLoop, hmap]
      split
      · rename_i hk
        refine (wp_bind _ _).2 <| wp_getBuf h .decode fun b bk' hg =>
          (wp_bind _ _).2 <| (wp_modify _).2 <| (wp_bind _ _).2 ?_
        have hg' : Good vars (w.fecAt ⟨d, dc ++ [b]⟩ bk') := by
          refine Good.fec (f := ⟨d, dc⟩) hg fun c => ?_
          rw [heldFec, heldFec, holders_append, holders_append, holders_map, holders_map,
            List.count_append, holders_cons,
            List.count_singleton]
          simp only [beq_iff_eq]
          omega
        refine wp_mono (ih (k + 1) (dc ++ [b]) hg' fun c hc => List.mem_append_left _ (hin c hc))
          (fun e st he => ?_) fun r st hr => ?_
        · obtain ⟨⟨more, bk'', hs⟩, hgood, he⟩ := he
          refine ⟨⟨b :: more, bk'', ?_⟩, hgood, ?_⟩
          · rw [hs, List.append_assoc]
            rfl
          · rw [he]
            rfl
        · obtain ⟨⟨bk'', hs⟩, hgood, hr, hlen⟩ := hr
          refine ⟨⟨bk'', ?_⟩, hgood, ?_, ?_⟩
          · rw [hs, List.append_assoc]
            rfl
          · rw [hr]
            rfl
          · rw [lost_none hk, ← hlen]
            rfl
      · rename_i hk
        have hlost : lost (dataShards - k) (none :: cache) = lost (dataShards - (k + 1)) cache := by
          rw [Nat.sub_eq_zero_of_le (Nat.not_lt.1 hk), Nat.sub_eq_zero_of_le (by omega)]
          rfl
        refine (wp_bind _ _).2 <| wp_mono (ih (k + 1) dc h hin) (fun e st he => ?_) fun r st hr => ?_
        · refine ⟨he.1, he.2.1, ?_⟩
          rw [he.2.2]
          rfl
        · refine ⟨hr.1, hr.2.1, ?_, ?_⟩
          · rw [hr.2.2.1]
            rfl
          · rw [hlost]
            exact hr.2.2.2

theorem length_missing (n : Nat) :
    ∀ (cache : List (Option Packet)) (shards : List Bytes), shards.length = cache.length →
    (FecDecoder.missing n (cache.map (Option.map Prod.fst)) shards).length = lost n cache := by
  unfold FecDecoder.missing lost
  induction n with
  | zero => exact fun _ _ _ => rfl
  | succ n ih =>
    intro cache shards h
    cases cache with
    | nil => rfl
    | cons c cache =>
      cases shards with
      | nil => cases h
      | cons s shards =>
        have hn := ih cache shards (Nat.succ.inj h)
        cases c with
        | none => simpa using hn
        | some p => simpa using hn

/-- `ReconstructData` works on the shards it is given, in their places. -/
def InPlace (c : Codec) : Prop := ∀ got out, c.reconstructData got = .ok (some out) → out.length = got.length

theorem reconstruct_spec {dc : List Nat} {x : PoppedCells} (hc : InPlace d.dec.codec)
    (h : Good vars (w.fecAt ⟨some d, dc⟩ bk)) (hin : ∀ b ∈ x.bufs, b ∈ dc) :
    wp (reconstruct vars x) (fun e s => Broken vars w dc s ∧ d.plain.reconstruct x.plain = .error e)
      (fun r s => (∃ dc' bk', s = w.fecAt ⟨some d, dc'⟩ bk' ∧
        ∀ b, dc'.count b = dc.count b + (r.map Prod.snd).count b) ∧
        Good vars s ∧ d.plain.reconstruct x.plain = .ok (r.map Prod.fst))
      (w.fecAt ⟨some d, dc⟩ bk) := by
  unfold reconstruct FecDecoder.reconstruct
  refine (wp_bind _ _).2 <| wp_getDec ?_
  by_cases hall : x.numDataShard = d.dec.dataShards
  · have hall' : x.plain.numDataShard = d.plain.dataShards := hall
    rw [if_pos hall, if_pos hall']
    exact ⟨⟨dc, bk, rfl, fun b => rfl⟩, h, rfl⟩
  have hall' : ¬ x.plain.numDataShard = d.plain.dataShards := hall
  rw [if_neg hall, if_neg hall']
  refine (wp_bind _ _).2 <| wp_mono (fillLoop_spec x.maxlen d.dec.dataShards x.shards 0 dc h hin)
    (fun e s he => ?_) fun r s hr => ?_
  · obtain ⟨⟨more, bk', rfl⟩, hg, he⟩ := he
    refine ⟨⟨d, _, bk', rfl, hg, fun b => ?_⟩, ?_⟩
    · rw [List.count_append]
      omega
    · show x.plain.shards.mapM (FecDecoder.fillUp x.plain.maxlen) >>= _ = _
      have he' : x.plain.shards.mapM (FecDecoder.fillUp x.plain.maxlen) = .error e := he
      rw [he']
      rfl
  obtain ⟨⟨bk', rfl⟩, hg, hmap, hlen⟩ := hr
  have hmap' : x.plain.shards.mapM (FecDecoder.fillUp x.plain.maxlen) = .ok r.1 := hmap
  rw [hmap', Go.ok_bind]
  have hbroken : ∀ bk, Good vars (w.fecAt ⟨some d, dc ++ r.2⟩ bk) → Broken vars w dc (w.fecAt ⟨some d, dc ++ r.2⟩ bk) :=
    fun bk hg => ⟨d, _, bk, rfl, hg, fun b => by rw [List.count_append]; omega⟩
  refine (wp_bind _ _).2 <| wp_useEach _ hg (fun b hb => ?_) fun bk₁ hg₁ => (wp_bind _ _).2 <| (wp_call _).2
    ⟨fun y hy => ?_, fun e he => ?_⟩
  · rcases List.mem_append.1 hb with hb | hb
    · exact List.mem_append_left _ (hin b hb)
    · exact List.mem_append_right _ hb
  · have hy' : d.plain.codec.reconstructData r.1 = .ok y := hy
    rw [hy', Go.ok_bind]
    cases y with
    | none =>
      refine (wp_bind _ _).2 <| wp_putDecode r.2 hg₁ (fun b => ?_) fun bk₂ hg₂ => ⟨⟨_, bk₂, rfl, fun b => ?_⟩, hg₂, rfl⟩
      · dsimp only
        rw [List.count_append]
        omega
      · dsimp only
        rw [List.count_diff, List.count_append]
        simp
    | some shards =>
      dsimp only
      by_cases hcache : d.dec.decodeCache < d.dec.dataShards
      · have hcache' : d.plain.decodeCache < d.plain.dataShards := hcache
        rw [if_pos hcache, if_pos hcache']
        exact ⟨hbroken bk₁ hg₁, rfl⟩
      · have hcache' : ¬ d.plain.decodeCache < d.plain.dataShards := hcache
        rw [if_neg hcache, if_neg hcache']
        have hshards : shards.length = x.shards.length := by
          rw [hc _ _ hy, Go.mapM_length hmap, List.length_map]
        have hmiss : (FecDecoder.missing d.dec.dataShards x.plain.shards shards).length = r.2.length :=
          (length_missing _ x.shards shards hshards).trans hlen.symm
        refine ⟨⟨_, bk₁, rfl, fun b => ?_⟩, hg₁, ?_⟩
        · rw [List.count_append, List.map_snd_zip (Nat.le_of_eq hmiss.symm)]
        · rw [List.map_fst_zip (Nat.le_of_eq hmiss)]
          rfl
  · have he' : d.plain.codec.reconstructData r.1 = .error e := he
    rw [he']
    exact ⟨hbroken bk₁ hg₁, rfl⟩

/-- The marks of a set that has been emptied. -/
def ShardCells.drained (h : ShardCells) : ShardCells :=
  ⟨[], h.elements.foldr (fun pkt m => m.erase (seqid pkt.1)) h.marks⟩

theorem ShardCells.plain_drained (h : ShardCells) : h.drained.plain = h.plain.drain := by
  unfold ShardCells.drained ShardCells.plain ShardHeap.drain
  rw [List.foldr_map]
  rfl

theorem recover_spec {dec : FecDecoder} {t : Table UInt32 ShardCells} {shardId : UInt32} {shard : ShardCells}
    (hc : InPlace dec.codec)
    (h : Good vars (w.fecAt ⟨some ⟨dec, t.insert shardId shard⟩, []⟩ bk)) :
    wp (recover vars shardId shard)
      (fun e s => Broken vars w [] s ∧ dec.recover (shard.elements.map Prod.fst) = .error e)
      (fun r s => (∃ dc' bk', s = w.fecAt ⟨some ⟨dec, t.insert shardId shard.drained⟩, dc'⟩ bk' ∧
          ∀ b, dc'.count b = (r.map Prod.snd).count b) ∧
        Good vars s ∧ dec.recover (shard.elements.map Prod.fst) = .ok (r.map Prod.fst))
      (w.fecAt ⟨some ⟨dec, t.insert shardId shard⟩, []⟩ bk) := by
  obtain ⟨els, m⟩ := shard
  unfold recover FecDecoder.recover
  refine (wp_bind _ _).2 <| wp_getDec ?_
  by_cases hflag : dec.flagCache < dec.decodeCache
  · rw [if_pos hflag, if_pos hflag]
    exact ⟨⟨_, _, _, rfl, h, fun b => Nat.zero_le _⟩, rfl⟩
  rw [if_neg hflag, if_neg hflag]
  have h' : Good vars (w.fecAt ⟨some ⟨dec, t.insert shardId ⟨els.reverse.reverse, m⟩⟩, []⟩ bk) := by
    rw [List.reverse_reverse]
    exact h
  have hpop := popLoop_spec dec t shardId els.reverse m [] ⟨List.replicate dec.decodeCache none, 0, 0⟩ h'
  rw [List.reverse_reverse, List.map_reverse, List.foldl_reverse] at hpop
  have hx : (⟨List.replicate dec.decodeCache none, 0, 0⟩ : PoppedCells).plain =
      ⟨List.replicate dec.decodeCache none, 0, 0⟩ := by
    simp [PoppedCells.plain]
  rw [hx] at hpop
  refine (wp_bind _ _).2 <| wp_mono hpop (fun e s he => ?_) fun x s hs => ?_
  · refine ⟨he.1, ?_⟩
    rw [he.2]
    rfl
  obtain ⟨⟨bk', rfl⟩, hg, hfold, hin⟩ := hs
  rw [hfold, Go.ok_bind]
  have hin' : ∀ b ∈ x.bufs, b ∈ [] ++ els.reverse.map Prod.snd := by
    intro b hb
    rcases hin b hb with hb | hb
    · simp [PoppedCells.bufs] at hb
    · exact List.mem_append_right _ hb
  -- `PutPkts` finds the packets in the variables of the call, at a panic too
  refine wp_deferred <| wp_mono (reconstruct_spec hc hg hin') (fun e s he => ?_) fun r s hr => ?_
  · obtain ⟨⟨d, dc, bk₁, rfl, hg₁, hle⟩, he⟩ := he
    exact wp_putDecode _ hg₁ hle fun bk₂ hg₂ => ⟨⟨d, _, bk₂, rfl, hg₂, fun b => Nat.zero_le _⟩, he⟩
  · obtain ⟨⟨dc, bk₁, rfl, hcount⟩, hg₁, hr⟩ := hr
    refine wp_putDecode _ hg₁ (fun b => ?_) fun bk₂ hg₂ => ⟨⟨_, bk₂, rfl, fun b => ?_⟩, hg₂, hr⟩
    · have := hcount b
      dsimp only at this ⊢
      rw [List.nil_append] at this
      omega
    · have := hcount b
      dsimp only at this ⊢
      rw [List.nil_append] at this
      rw [List.count_diff]
      omega

/-! ## `decode` -/

theorem plain_lookup (d : DecoderCells) (id : UInt32) :
    (d.plain.shardSet.lookup id).getD .empty = ((d.shardSet.lookup id).getD .empty).plain := by
  show ((d.shardSet.map ShardCells.plain).lookup id).getD .empty = _
  rw [Table.lookup_map]
  cases d.shardSet.lookup id <;> rfl

theorem plain_push (shard : ShardCells) (bts : Bytes) (b : Nat) :
    (shard.push (bts, b)).plain = shard.plain.push bts := by
  simp [ShardCells.plain, ShardCells.push, ShardHeap.push]

theorem plain_updateNewest (dec : FecDecoder) (t : Table UInt32 ShardCells) (id : UInt32) :
    (⟨dec.updateNewest id, t⟩ : DecoderCells).plain =
      { dec with shardSet := t.map ShardCells.plain }.updateNewest id := by
  unfold DecoderCells.plain FecDecoder.updateNewest
  dsimp only
  split
  · rename_i h
    exact (if_pos h).symm
  · rename_i h
    exact (if_neg h).symm

/-- The plain decoder, in the words of the one with buffers. -/
theorem plain_receive (d : DecoderCells) (bts : Bytes) (b : Nat) {shardId : UInt32}
    {shard shard' : ShardCells} {d₁ : DecoderCells}
    (hid : shardId = d.dec.getShardId (seqid bts)) (hshard : shard = (d.shardSet.lookup shardId).getD .empty)
    (hshard' : shard' = shard.push (bts, b))
    (hd₁ : d₁ = ⟨d.dec.updateNewest shardId, d.shardSet.insert shardId shard'⟩) :
    d.plain.receive bts =
      if shard.has (seqid bts) then .ok (d.plain, [])
      else if maxPacketSize < bts.length then .error .sliceBounds
      else if shard'.elements.length < d.dec.dataShards then .ok (d₁.discard.plain, [])
      else d₁.dec.recover (shard'.elements.map Prod.fst) >>= fun recovered =>
        .ok ((⟨d₁.dec, d.shardSet.insert shardId shard'.drained⟩ : DecoderCells).discard.plain, recovered) := by
  have hnew : FecDecoder.updateNewest { d.plain with shardSet := d.plain.shardSet.insert shardId shard'.plain }
    shardId = d₁.plain := by
    rw [hd₁, plain_updateNewest, Table.map_insert]
    rfl
  have hpush : ((d.plain.shardSet.lookup shardId).getD .empty).push bts = shard'.plain := by
    rw [plain_lookup, ← hshard, ← plain_push _ bts b, hshard']
  have hhas : ((d.plain.shardSet.lookup shardId).getD .empty).has (seqid bts) = shard.has (seqid bts) := by
    rw [plain_lookup, ← hshard]
    rfl
  have hdata : d₁.plain.dataShards = d.dec.dataShards := by
    obtain ⟨n, hn⟩ := FecDecoder.updateNewest_eq d.dec shardId
    rw [hd₁, hn]
    rfl
  have hdrain : { d₁.plain with shardSet := d₁.plain.shardSet.insert shardId shard'.plain.drain } =
      (⟨d₁.dec, d.shardSet.insert shardId shard'.drained⟩ : DecoderCells).plain := by
    unfold DecoderCells.plain
    rw [hd₁]
    dsimp only
    rw [Table.map_insert, Table.map_insert, AList.insert_insert, ShardCells.plain_drained]
  have hlen : shard'.plain.elements.length = shard'.elements.length := List.length_map _
  unfold FecDecoder.receive
  dsimp only at hdrain ⊢
  rw [show d.plain.getShardId (seqid bts) = shardId from hid.symm, hpush, hhas, hnew, hdrain, hdata,
    hlen, ← d₁.plain_discard,
    ← DecoderCells.plain_discard]
  rfl

/-- What a call of `decode` leaves: the buffers in variables are those of the
shards it recovered. -/
structure Decoded (vars : Held) (w : World) (d' : DecoderCells) (r : List Packet) (s : World) : Prop where
  state : ∃ dc bk, s = w.fecAt ⟨some d', dc⟩ bk ∧ ∀ b, dc.count b = (r.map Prod.snd).count b
  good : Good vars s

theorem count_pushed (t : Table UInt32 ShardCells) (id : UInt32) (bts : Bytes) (b c : Nat) :
    inSets (t.insert id (((t.lookup id).getD .empty).push (bts, b))) c = inSets t c + if b = c then 1 else 0 := by
  have h := inSets_insert t id (((t.lookup id).getD .empty).push (bts, b)) c
  have hb : ∀ s : ShardCells, (s.push (bts, b)).bufs.count c = s.bufs.count c + if b = c then 1 else 0 := by
    intro s
    simp [ShardCells.push, ShardCells.bufs, List.count_append, List.count_singleton]
  rw [hb] at h
  have he : ((t.lookup id).map fun s => s.bufs.count c).getD 0 = ((t.lookup id).getD .empty).bufs.count c := by
    cases t.lookup id <;> rfl
  rw [he] at h
  omega

theorem receive_spec (hc : InPlace d.dec.codec) (bts : Bytes) (h : Good vars (w.fecAt ⟨some d, []⟩ bk)) :
    wp (receive vars bts) (fun e s => s.books.Clean ∧ d.plain.receive bts = .error e)
      (fun r s => ∃ d', Decoded vars w d' r s ∧ InPlace d'.dec.codec ∧
        d.plain.receive bts = .ok (d'.plain, r.map Prod.fst))
      (w.fecAt ⟨some d, []⟩ bk) := by
  unfold receive
  refine (wp_bind _ _).2 <| wp_getDec ?_
  have hp := fun b => plain_receive d bts b rfl rfl rfl rfl
  dsimp only at hp ⊢
  split
  · rename_i hhas
    have hp := hp 0
    rw [if_pos hhas] at hp
    exact ⟨d, ⟨⟨[], bk, rfl, fun b => rfl⟩, h⟩, hc, hp⟩
  rename_i hhas
  refine (wp_bind _ _).2 <| wp_getSlice h .decode (fun hlen b bk₁ hg => ?_) fun hlen bk₁ hclean => ?_
  · have hp := hp b
    rw [if_neg hhas, if_neg hlen] at hp
    refine (wp_bind _ _).2 <| wp_useSegBuf hg (var_held _ _ _ _) fun bk₂ hu => (wp_bind _ _).2 <| (wp_modify _).2 ?_
    have hcount := count_pushed d.shardSet (d.dec.getShardId (seqid bts)) bts b
    have hcodec : InPlace (d.dec.updateNewest (d.dec.getShardId (seqid bts))).codec := by
      obtain ⟨n, hn⟩ := FecDecoder.updateNewest_eq d.dec (d.dec.getShardId (seqid bts))
      rw [hn]
      exact hc
    generalize d.dec.getShardId (seqid bts) = shardId at hp hcount hcodec ⊢
    generalize ((d.shardSet.lookup shardId).getD .empty).push (bts, b) = shard at hp hcount ⊢
    generalize d.dec.updateNewest shardId = dec at hp hcodec ⊢
    have hg₂ : Good vars (w.fecAt ⟨some ⟨dec, d.shardSet.insert shardId shard⟩, []⟩ bk₂) :=
      Good.fec (f := ⟨some d, []⟩) hu fun c => by
        rw [holders_fec, holders_fec, holders_cons, hcount c]
        dsimp only
        omega
    refine wp_deferred ?_
    show wp _ _ _ (w.fecAt ⟨some ⟨dec, d.shardSet.insert shardId shard⟩, []⟩ bk₂)
    split
    · rename_i hfew
      rw [if_pos hfew] at hp
      exact wp_discardShards hg₂ fun dc' bk' hdc hg' => ⟨_, ⟨⟨dc', bk', rfl, hdc⟩, hg'⟩, hcodec, hp⟩
    · rename_i hfew
      rw [if_neg hfew] at hp
      refine wp_mono (recover_spec hcodec hg₂) (fun e s he => ?_) fun r s hr => ?_
      · obtain ⟨⟨d', dc, bk₃, rfl, hg₃, -⟩, he⟩ := he
        refine wp_discardShards hg₃ fun dc' bk' _ hg' => ⟨hg'.clean, ?_⟩
        rw [hp, he]
        rfl
      · obtain ⟨⟨dc, bk₃, rfl, hdc⟩, hg₃, hr⟩ := hr
        refine wp_discardShards hg₃ fun dc' bk' hdc' hg' =>
          ⟨_, ⟨⟨dc', bk', rfl, fun b => (hdc' b).trans (hdc b)⟩, hg'⟩, hcodec, ?_⟩
        rw [hp, hr]
        rfl
  · have hp := hp 0
    rw [if_neg hhas, if_pos hlen] at hp
    exact ⟨hclean, hp⟩

theorem plain_checked (d : DecoderCells) (bts : Bytes) :
    d.plain.checked bts = (⟨d.dec.checked bts, d.shardSet⟩ : DecoderCells).plain := by
  unfold FecDecoder.checked
  by_cases h : flag bts = d.dec.expected (seqid bts)
  · have h' : flag bts = d.plain.expected (seqid bts) := h
    rw [if_pos h, if_pos h']
  · have h' : ¬ flag bts = d.plain.expected (seqid bts) := h
    rw [if_neg h, if_neg h']
    rfl

/-- The codecs of the library work in place. -/
def LibInPlace (lib : Lib) : Prop := ∀ ds ps c, lib.newCodec ds ps = some c → InPlace c

theorem tune_inPlace {lib : Lib} (hlib : LibInPlace lib) {dec : FecDecoder} (hc : InPlace dec.codec) (id : UInt32) :
    InPlace (dec.tune lib id).codec := by
  rcases FecDecoder.tune_cases lib dec id with ⟨f, he⟩ | ⟨ds, ps, -, -, -, -, -, he⟩
  · rw [he]
    exact hc
  · rw [he, FecDecoder.retune]
    cases hm : lib.newCodec ds ps with
    | none => exact hc
    | some c => exact hlib ds ps c hm

theorem decodeBody_spec {lib : Lib} (hlib : LibInPlace lib) (hc : InPlace d.dec.codec) (bts : Bytes)
    (h : Good vars (w.fecAt ⟨some d, []⟩ bk)) :
    wp (decodeBody vars lib bts) (fun e s => s.books.Clean ∧ d.plain.decode lib bts = .error e)
      (fun r s => ∃ d', Decoded vars w d' r s ∧ InPlace d'.dec.codec ∧
        d.plain.decode lib bts = .ok (d'.plain, r.map Prod.fst))
      (w.fecAt ⟨some d, []⟩ bk) := by
  unfold decodeBody FecDecoder.decode
  refine (wp_bind _ _).2 <| wp_getDec ?_
  split
  · exact ⟨h.clean, rfl⟩
  have hset : ∀ dec : FecDecoder, Good vars (w.fecAt ⟨some ⟨dec, d.shardSet⟩, [] ++ []⟩ bk) :=
    fun dec => h.fec fun b => by
    rw [holders_fec, holders_fec]
    rfl
  refine (wp_bind _ _).2 <| wp_setDec ?_
  dsimp only
  by_cases hpaws : (d.dec.sampled bts).paws ≤ seqid bts
  · have hpaws' : (d.plain.sampled bts).paws ≤ seqid bts := hpaws
    rw [if_pos hpaws, if_pos hpaws']
    exact ⟨⟨d.dec.sampled bts, d.shardSet⟩, ⟨⟨[], bk, rfl, fun b => rfl⟩, hset _⟩, hc, rfl⟩
  have hpaws' : ¬ (d.plain.sampled bts).paws ≤ seqid bts := hpaws
  rw [if_neg hpaws, if_neg hpaws']
  by_cases hzero : UInt32.ofNat (d.dec.sampled bts).shardSize = 0
  · have hzero' : UInt32.ofNat (d.plain.sampled bts).shardSize = 0 := hzero
    rw [if_pos hzero, if_pos hzero']
    exact ⟨(hset _).clean, rfl⟩
  have hzero' : ¬ UInt32.ofNat (d.plain.sampled bts).shardSize = 0 := hzero
  have hplain : (d.plain.sampled bts).checked bts =
    (⟨(d.dec.sampled bts).checked bts, d.shardSet⟩ : DecoderCells).plain :=
    plain_checked ⟨d.dec.sampled bts, d.shardSet⟩ bts
  have hcodec : InPlace ((d.dec.sampled bts).checked bts).codec := by
    rw [(FecDecoder.checked_same bts).codec]
    exact hc
  rw [if_neg hzero, if_neg hzero', hplain]
  refine (wp_bind _ _).2 <| wp_setDec ?_
  generalize (d.dec.sampled bts).checked bts = dec at hcodec ⊢
  by_cases htune : dec.shouldTune = true
  · have htune' : (⟨dec, d.shardSet⟩ : DecoderCells).plain.shouldTune = true := htune
    rw [if_pos htune, if_pos htune']
    refine (wp_bind _ _).2 <| wp_tune lib (seqid bts) (hset dec) fun d' dc' bk' hdc hg hp => ?_
    refine ⟨d', ⟨⟨dc', bk', rfl, hdc⟩, hg⟩, ?_, ?_⟩
    · have hcd : InPlace (⟨dec, d.shardSet⟩ : DecoderCells).plain.codec := hcodec
      have hcp : InPlace d'.plain.codec := by
        rw [hp]
        exact tune_inPlace hlib hcd (seqid bts)
      exact hcp
    · rw [hp]
      rfl
  · have htune' : ¬ (⟨dec, d.shardSet⟩ : DecoderCells).plain.shouldTune = true := htune
    rw [if_neg htune, if_neg htune']
    exact receive_spec hcodec bts (hset dec)

theorem decode_spec {lib : Lib} (hlib : LibInPlace lib) (hc : InPlace d.dec.codec) (bts : Bytes)
    (h : Good vars (w.fecAt ⟨some d, []⟩ bk)) :
    wp (decode vars lib bts) (fun e s => s.books.Clean ∧ d.plain.decode lib bts = .error e)
      (fun r s => ∃ d' bk', s = w.fecAt ⟨some d', []⟩ bk' ∧ Good ((r.map fun p => (.recovered, p.2)) ++ vars) s ∧
        InPlace d'.dec.codec ∧ d.plain.decode lib bts = .ok (d'.plain, r.map Prod.fst))
      (w.fecAt ⟨some d, []⟩ bk) := by
  unfold decode
  refine (wp_bind _ _).2 <| wp_mono (decodeBody_spec hlib hc bts h) (fun e s he => he) fun r s hr => ?_
  obtain ⟨d', ⟨⟨dc, bk', rfl, hdc⟩, hg⟩, hcodec, hp⟩ := hr
  have hend : Good ((r.map fun p => (.recovered, p.2)) ++ vars) (w.fecAt ⟨some d', []⟩ bk') := hg.fec fun b => ?_
  · exact (wp_bind _ _).2 <| (wp_modify _).2 ⟨d', bk', rfl, hend, hcodec, hp⟩
  have hr : (r.map fun p => ((.recovered, p.2) : Place × Nat)) = (r.map Prod.snd).map fun b => (.recovered, b) := by
    rw [List.map_map]
    rfl
  rw [holders_fec, holders_fec, holders_append, hr, holders_map, ← hdc b]
  show _ + 0 + _ = _
  omega

end

end KcpGo.L2.Buffers
