import Mathlib.Data.Finset.Card
import Mathlib.Logic.Relation
import Mathlib.Order.Interval.Finset.Nat

/-!
# A sliding-window link over a lossy network

One direction of a windowed protocol on unbounded counters: a sender with its
buffer (`Tx`), a receiver with its reorder buffer (`Rx`), and everything each
of them has ever put on the wire. A message may arrive any number of times,
in any order, as long as it is not older than `fresh`.

The sender's half changes by `TxStep`, which reads the receiver's messages;
the receiver's half by `RxStep`, which reads the sender's. The parameters
`F` and `O` of the steps stand for two assumptions of a run: the receive
window never changes (`F`), and the sender only hears messages that do not
reopen its window from the past (`O`).

* `Inv`: una ≤ rcv ≤ nxt ≤ una + window, everything acknowledged has been
  accepted, everything on the wire is genuine. Kept by every step.
* `WindowInv`: with a fixed window the sender stays inside it.
* `ProbeInv`: with both assumptions, the oldest unfinished number is never
  acknowledged out of order while the window is open.
-/
namespace KcpGo.Link

/-- Largest advertised window, largest age of a message that still arrives,
largest age of an item when it is acknowledged. -/
structure Bounds where
  window : Nat
  fresh : Nat
  age : Nat

/-- What every message to the sender carries; some acknowledge one number. -/
structure Ctrl where
  una : Nat
  wnd : Nat
  ack : Option Nat

/-- A data message; `una` is the sender's when it was sent. -/
structure Data where
  idx : Nat
  una : Nat

/-- The sender: the payloads numbered so far, the first number not known to
be delivered, the numbers acknowledged out of order. -/
structure Tx (P : Type) where
  sent : List P
  una : Nat
  acked : Set Nat
  rmtWnd : Nat
  data : Set Data

/-- The receiver: the next number expected, how many were taken out, the
numbers stored ahead, the acknowledgements due. -/
structure Rx where
  rcv : Nat
  taken : Nat
  wnd : Nat
  stored : Finset Nat
  acks : List Nat
  ctrl : Set Ctrl

variable {P : Type} {b : Bounds} {F O : Prop}

/-- Number `i` has reached the receiver. -/
def Rx.Has (x : Rx) (i : Nat) : Prop := i < x.rcv ∨ i ∈ x.stored

/-- The next number is not held back while there is room. -/
def Rx.Settled (x : Rx) : Prop := x.rcv ∈ x.stored → x.taken + x.wnd ≤ x.rcv

def Tx.hear (t : Tx P) (c : Ctrl) (reg mark : Bool) : Tx P :=
  { t with una := max t.una c.una
           rmtWnd := if reg then c.wnd else t.rmtWnd
           acked := if mark then t.acked ∪ { i | c.ack = some i } else t.acked }

def Rx.accept (x : Rx) (i : Nat) : Rx :=
  { x with acks := x.acks ++ [i], stored := if x.rcv ≤ i then insert i x.stored else x.stored }

def Rx.move (x : Rx) : Rx := { x with rcv := x.rcv + 1, stored := x.stored.erase x.rcv }

/-- The sender's steps against the receiver's half `x`. -/
inductive TxStep (b : Bounds) (O : Prop) (x : Rx) (t : Tx P) : Tx P → Prop where
  | fillWindow (ps : List P) (h : ps = [] ∨ t.sent.length + ps.length ≤ t.una + t.rmtWnd) :
    TxStep b O x t { t with sent := t.sent ++ ps }
  | emit (D : Set Data)
    (h : ∀ d ∈ D, d.una = t.una ∧ t.una ≤ d.idx ∧ d.idx < t.sent.length ∧ d.idx ∉ t.acked) :
    TxStep b O x t { t with data := t.data ∪ D }
  | hear (c : Ctrl) (reg mark : Bool) (hc : c ∈ x.ctrl) (hf : x.rcv ≤ c.una + b.fresh)
    (ho : O → reg = true ∧ (c.wnd ≠ 0 → t.una ≤ c.una)) : TxStep b O x t (t.hear c reg mark)

/-- What the receiver may put on the wire. -/
structure Tells (b : Bounds) (t : Tx P) (x : Rx) (c : Ctrl) : Prop where
  una : c.una = x.rcv
  wnd : c.wnd ≤ b.window
  exact : x.wnd ≤ b.window → c.wnd = x.wnd - (x.rcv - x.taken)
  ack : ∀ i, c.ack = some i → i ∈ x.acks ∧ t.sent.length ≤ i + b.age

/-- The receiver's steps against the sender's half `t`. -/
inductive RxStep (b : Bounds) (F : Prop) (t : Tx P) (x : Rx) : Rx → Prop where
  | accept (d : Data) (hd : d ∈ t.data) (hf : t.una ≤ d.una + b.fresh) : RxStep b F t x (x.accept d.idx)
  | move (h : x.rcv ∈ x.stored) (hr : x.rcv < x.taken + x.wnd) : RxStep b F t x x.move
  | take (m : Nat) (h : x.taken + m ≤ x.rcv) : RxStep b F t x { x with taken := x.taken + m }
  | resize (w : Nat) (h : ¬ F) : RxStep b F t x { x with wnd := w }
  | tell (C : Set Ctrl) (h : ∀ c ∈ C, Tells b t x c) (hs : F → x.Settled) :
    RxStep b F t x { x with ctrl := x.ctrl ∪ C }
  | clear : RxStep b F t x { x with acks := [] }

abbrev TxRun (b : Bounds) (O : Prop) (x : Rx) : Tx P → Tx P → Prop := Relation.ReflTransGen (TxStep b O x)

abbrev RxRun (b : Bounds) (F : Prop) (t : Tx P) : Rx → Rx → Prop := Relation.ReflTransGen (RxStep b F t)

/-! ## The joint invariant -/

structure Inv (b : Bounds) (t : Tx P) (x : Rx) : Prop where
  una_le : t.una ≤ x.rcv
  rcv_le : x.rcv ≤ t.sent.length
  win : t.sent.length ≤ t.una + b.window
  rmt : t.rmtWnd ≤ b.window
  taken : x.taken ≤ x.rcv
  stored : ∀ i ∈ x.stored, x.rcv ≤ i ∧ i < t.sent.length
  acked : ∀ i ∈ t.acked, x.Has i
  acks : ∀ i ∈ x.acks, x.Has i ∧ x.rcv + x.stored.card ≤ i + b.fresh + b.window + x.acks.length
  data : ∀ d ∈ t.data, d.una ≤ d.idx ∧ d.idx < t.sent.length
  ctrl : ∀ c ∈ x.ctrl, c.una ≤ x.rcv ∧ c.wnd ≤ b.window ∧
    ∀ i, c.ack = some i → x.Has i ∧ c.una ≤ i + b.age

variable {t t' : Tx P} {x x' : Rx}

theorem Inv.has_lt (h : Inv b t x) {i : Nat} (hi : x.Has i) : i < t.sent.length := by
  have := h.rcv_le
  rcases hi with hi | hi
  · omega
  · exact (h.stored i hi).2

theorem Inv.tx (h : Inv b t x) (hs : TxStep b O x t t') : Inv b t' x := by
  have h1 := h.rcv_le
  have h2 := h.win
  have h3 := h.rmt
  have h4 := h.una_le
  cases hs with
  | fillWindow ps hp =>
    have hlen : (t.sent ++ ps).length = t.sent.length + ps.length := List.length_append
    refine ⟨h4, by rw [hlen]; omega, ?_, h3, h.taken, ?_, h.acked, h.acks, ?_, h.ctrl⟩
    · rw [hlen]
      rcases hp with rfl | hp
      · simpa using h2
      · dsimp only
        omega
    · intro i hi
      have := h.stored i hi
      rw [hlen]
      omega
    · intro d hd
      have := h.data d hd
      rw [hlen]
      omega
  | emit D hD =>
    refine ⟨h4, h1, h2, h3, h.taken, h.stored, h.acked, h.acks, ?_, h.ctrl⟩
    intro d hd
    rcases hd with hd | hd
    · exact h.data d hd
    · obtain ⟨e1, e2, e3, -⟩ := hD d hd
      exact ⟨by omega, e3⟩
  | hear c reg mark hc hf ho =>
    obtain ⟨c1, c2, c3⟩ := h.ctrl c hc
    refine ⟨max_le h4 c1, h1, ?_, ?_, h.taken, h.stored, ?_, h.acks, h.data, h.ctrl⟩
    · show t.sent.length ≤ max t.una c.una + b.window
      have := le_max_left t.una c.una
      omega
    · show (if reg then c.wnd else t.rmtWnd) ≤ b.window
      split <;> assumption
    · intro i hi
      unfold Tx.hear at hi
      dsimp only at hi
      split at hi
      · rcases hi with hi | hi
        · exact h.acked i hi
        · exact (c3 i hi).1
      · exact h.acked i hi

/-- Nothing that reached the receiver is forgotten. -/
theorem Has.rx (hs : RxStep b F t x x') {i : Nat} (hi : x.Has i) : x'.Has i := by
  cases hs with
  | accept d hd hf =>
    rcases hi with hi | hi
    · exact .inl hi
    · right
      unfold Rx.accept
      dsimp only
      split
      · exact Finset.mem_insert_of_mem hi
      · exact hi
  | move h hr =>
    rcases hi with hi | hi
    · exact .inl (Nat.lt_succ_of_lt hi)
    · by_cases he : i = x.rcv
      · exact .inl (by simp [Rx.move, he])
      · exact .inr (Finset.mem_erase.mpr ⟨he, hi⟩)
  | take m h => exact hi
  | resize w h => exact hi
  | tell C h hs => exact hi
  | clear => exact hi

theorem Inv.accept (h : Inv b t x) {d : Data} (hd : d ∈ t.data)
    (hf : t.una ≤ d.una + b.fresh) : Inv b t (x.accept d.idx) := by
  have hstep : RxStep b True t x (x.accept d.idx) := .accept d hd hf
  obtain ⟨hdu, hdi⟩ := h.data d hd
  have hwin := h.win
  have hcard : (x.accept d.idx).stored.card ≤ x.stored.card + 1 := by
    unfold Rx.accept
    dsimp only
    split
    · exact Finset.card_insert_le _ _
    · omega
  have hstored : ∀ i ∈ (x.accept d.idx).stored, x.rcv ≤ i ∧ i < t.sent.length := by
    intro i hi
    unfold Rx.accept at hi
    dsimp only at hi
    split at hi
    · rcases Finset.mem_insert.mp hi with rfl | hi
      · exact ⟨by assumption, hdi⟩
      · exact h.stored i hi
    · exact h.stored i hi
  have hnew : (x.accept d.idx).Has d.idx := by
    by_cases hlt : x.rcv ≤ d.idx
    · right
      simp [Rx.accept, hlt]
    · exact .inl (Nat.lt_of_not_le hlt)
  have hctrl : ∀ c ∈ (x.accept d.idx).ctrl, c.una ≤ x.rcv ∧ c.wnd ≤ b.window ∧
      ∀ i, c.ack = some i → (x.accept d.idx).Has i ∧ c.una ≤ i + b.age := by
    intro c hc
    obtain ⟨c1, c2, c3⟩ := h.ctrl c hc
    exact ⟨c1, c2, fun i hi => ⟨Has.rx hstep (c3 i hi).1, (c3 i hi).2⟩⟩
  have hle : x.rcv + (x.accept d.idx).stored.card ≤ t.sent.length := by
    have hsub : (x.accept d.idx).stored ⊆ Finset.Ico x.rcv t.sent.length :=
      fun i hi => Finset.mem_Ico.mpr (hstored i hi)
    have := Finset.card_le_card hsub
    rw [Nat.card_Ico] at this
    have := h.rcv_le
    omega
  refine ⟨h.una_le, h.rcv_le, hwin, h.rmt, h.taken, hstored, fun i hi => Has.rx hstep (h.acked i hi), ?_,
    h.data, hctrl⟩
  intro i hi
  have hlen : (x.accept d.idx).acks.length = x.acks.length + 1 := by simp [Rx.accept]
  have hrcv : (x.accept d.idx).rcv = x.rcv := rfl
  rw [hlen, hrcv]
  -- an older item was one shorter in the list when it had one stored less
  rcases List.mem_append.mp hi with hi | hi
  · obtain ⟨a1, a2⟩ := h.acks i hi
    exact ⟨Has.rx hstep a1, by omega⟩
  · simp only [List.mem_singleton] at hi
    subst hi
    exact ⟨hnew, by omega⟩

theorem Inv.move (h : Inv b t x) (hm : x.rcv ∈ x.stored) (hr : x.rcv < x.taken + x.wnd) :
    Inv b t x.move := by
  have hstep : RxStep b True t x x.move := .move hm hr
  have hcard : x.move.stored.card + 1 = x.stored.card := Finset.card_erase_add_one hm
  have hrcv : x.move.rcv = x.rcv + 1 := rfl
  have hlt := (h.stored _ hm).2
  have htak := h.taken
  have huna := h.una_le
  refine ⟨by omega, by omega, h.win, h.rmt, by show x.taken ≤ x.rcv + 1; omega, ?_,
    fun i hi => Has.rx hstep (h.acked i hi), ?_, h.data, ?_⟩
  · intro i hi
    obtain ⟨hne, hi⟩ := Finset.mem_erase.mp hi
    have := h.stored i hi
    omega
  · intro i hi
    obtain ⟨a1, a2⟩ := h.acks i hi
    refine ⟨Has.rx hstep a1, ?_⟩
    show x.rcv + 1 + x.move.stored.card ≤ i + b.fresh + b.window + x.acks.length
    omega
  · intro c hc
    obtain ⟨c1, c2, c3⟩ := h.ctrl c hc
    exact ⟨by omega, c2, fun i hi => ⟨Has.rx hstep (c3 i hi).1, (c3 i hi).2⟩⟩

theorem Inv.rx (h : Inv b t x) (hs : RxStep b F t x x') : Inv b t x' := by
  cases hs with
  | accept d hd hf => exact h.accept hd hf
  | move hm hr => exact h.move hm hr
  | take m hm =>
    exact ⟨h.una_le, h.rcv_le, h.win, h.rmt, hm, h.stored, h.acked, h.acks, h.data, h.ctrl⟩
  | resize w hF =>
    exact ⟨h.una_le, h.rcv_le, h.win, h.rmt, h.taken, h.stored, h.acked, h.acks, h.data, h.ctrl⟩
  | tell C hC hs =>
    refine ⟨h.una_le, h.rcv_le, h.win, h.rmt, h.taken, h.stored, h.acked, h.acks, h.data, ?_⟩
    intro c hc
    rcases hc with hc | hc
    · exact h.ctrl c hc
    · have ht := hC c hc
      have hu := ht.una
      refine ⟨by show c.una ≤ x.rcv; omega, ht.wnd, fun i hi => ?_⟩
      obtain ⟨hm, hage⟩ := ht.ack i hi
      refine ⟨(h.acks i hm).1, ?_⟩
      have := h.rcv_le
      omega
  | clear =>
    refine ⟨h.una_le, h.rcv_le, h.win, h.rmt, h.taken, h.stored, h.acked, ?_, h.data, h.ctrl⟩
    intro i hi
    cases hi

theorem Inv.txRun (h : Inv b t x) (hs : TxRun b O x t t') : Inv b t' x := by
  induction hs with
  | refl => exact h
  | tail _ hstep ih => exact ih.tx hstep

theorem Inv.rxRun (h : Inv b t x) (hs : RxRun b F t x x') : Inv b t x' := by
  induction hs with
  | refl => exact h
  | tail _ hstep ih => exact ih.rx hstep

/-! ## Histories only grow -/

/-- Later sender state: more is numbered, more is on the wire. -/
structure Tx.Grows (t t' : Tx P) : Prop where
  sent : t.sent <+: t'.sent
  una : t.una ≤ t'.una
  data : t.data ⊆ t'.data

theorem Tx.Grows.refl (t : Tx P) : t.Grows t := ⟨List.prefix_rfl, Nat.le_refl _, subset_rfl⟩

theorem Tx.Grows.trans {a c d : Tx P} (h₁ : a.Grows c) (h₂ : c.Grows d) : a.Grows d :=
  ⟨h₁.sent.trans h₂.sent, h₁.una.trans h₂.una, h₁.data.trans h₂.data⟩

theorem TxRun.grows (h : TxRun b O x t t') : t.Grows t' := by
  induction h with
  | refl => exact .refl t
  | tail _ hs ih =>
    refine ih.trans ?_
    cases hs with
    | fillWindow ps h => exact ⟨List.prefix_append _ _, Nat.le_refl _, subset_rfl⟩
    | emit D h => exact ⟨List.prefix_rfl, Nat.le_refl _, Set.subset_union_left⟩
    | hear c reg mark hc hf ho => exact ⟨List.prefix_rfl, le_max_left _ _, subset_rfl⟩

theorem Tx.Grows.get (h : t.Grows t') {i : Nat} {p : P} (hp : t.sent[i]? = some p) :
    t'.sent[i]? = some p := by
  obtain ⟨l, hl⟩ := h.sent
  obtain ⟨hlt, -⟩ := List.getElem?_eq_some_iff.mp hp
  rw [← hl, List.getElem?_append_left hlt]
  exact hp

/-- Later receiver state. -/
structure Rx.Grows (x x' : Rx) : Prop where
  rcv : x.rcv ≤ x'.rcv
  taken : x.taken ≤ x'.taken
  ctrl : x.ctrl ⊆ x'.ctrl

theorem Rx.Grows.refl (x : Rx) : x.Grows x := ⟨Nat.le_refl _, Nat.le_refl _, subset_rfl⟩

theorem Rx.Grows.trans {a c d : Rx} (h₁ : a.Grows c) (h₂ : c.Grows d) : a.Grows d :=
  ⟨h₁.rcv.trans h₂.rcv, h₁.taken.trans h₂.taken, h₁.ctrl.trans h₂.ctrl⟩

theorem RxRun.grows (h : RxRun b F t x x') : x.Grows x' := by
  induction h with
  | refl => exact .refl x
  | tail _ hs ih =>
    refine ih.trans ?_
    cases hs with
    | accept d hd hf => exact ⟨Nat.le_refl _, Nat.le_refl _, subset_rfl⟩
    | move h hr => exact ⟨Nat.le_succ _, Nat.le_refl _, subset_rfl⟩
    | take m h => exact ⟨Nat.le_refl _, Nat.le_add_right _ _, subset_rfl⟩
    | resize w h => exact ⟨Nat.le_refl _, Nat.le_refl _, subset_rfl⟩
    | tell C h hs => exact ⟨Nat.le_refl _, Nat.le_refl _, Set.subset_union_left⟩
    | clear => exact ⟨Nat.le_refl _, Nat.le_refl _, subset_rfl⟩

/-! ## Moving several -/

/-- `m` numbers in a row are handed over. -/
def Rx.moves (x : Rx) (m : Nat) : Rx :=
  { x with rcv := x.rcv + m, stored := x.stored.filter fun i => x.rcv + m ≤ i }

theorem rxRun_moves : ∀ {m : Nat} {x : Rx}, (∀ i ∈ x.stored, x.rcv ≤ i) →
    (∀ j < m, x.rcv + j ∈ x.stored) → (m = 0 ∨ x.rcv + m ≤ x.taken + x.wnd) → RxRun b F t x (x.moves m) := by
  intro m
  induction m with
  | zero =>
    intro x hle _ _
    have : x.moves 0 = x := by
      have hfil : x.stored.filter (fun i => x.rcv + 0 ≤ i) = x.stored := Finset.filter_true_of_mem hle
      unfold Rx.moves
      rw [hfil]
      rfl
    rw [this]
  | succ m ih =>
    intro x hle hin hroom
    have hroom' : x.rcv + (m + 1) ≤ x.taken + x.wnd := hroom.resolve_left (Nat.succ_ne_zero m)
    -- the first of them, then the rest
    have hmove : RxStep b F t x x.move := .move (hin 0 (Nat.succ_pos m)) (by omega)
    have hrest : RxRun b F t x.move (x.move.moves m) := by
      refine ih ?_ ?_ (.inr ?_)
      · intro i hi
        obtain ⟨hne, hi⟩ := Finset.mem_erase.mp hi
        have := hle i hi
        show x.rcv + 1 ≤ i
        omega
      · intro j hj
        refine Finset.mem_erase.mpr ⟨?_, ?_⟩
        · show x.rcv + 1 + j ≠ x.rcv
          omega
        · have := hin (j + 1) (by omega)
          show x.rcv + 1 + j ∈ x.stored
          rwa [Nat.add_assoc, Nat.add_comm 1 j]
      · show x.rcv + 1 + m ≤ x.taken + x.wnd
        omega
    have hsame : x.move.moves m = x.moves (m + 1) := by
      have h1 : x.rcv + 1 + m = x.rcv + (m + 1) := by omega
      have h2 : (x.stored.erase x.rcv).filter (fun i => x.rcv + 1 + m ≤ i) =
          x.stored.filter (fun i => x.rcv + (m + 1) ≤ i) := by
        ext i
        simp only [Finset.mem_filter, Finset.mem_erase]
        constructor
        · rintro ⟨⟨-, hi⟩, hlt⟩
          exact ⟨hi, by omega⟩
        · rintro ⟨hi, hlt⟩
          exact ⟨⟨by omega, hi⟩, by omega⟩
      unfold Rx.moves Rx.move
      simp only [Rx.mk.injEq, and_true, true_and]
      exact ⟨h1, h2⟩
    exact .head hmove (hsame ▸ hrest)

/-! ## A fixed window -/

/-- The sender stays inside the receiver's window `w`. -/
structure WindowInv (w : Nat) (t : Tx P) (x : Rx) : Prop where
  wnd : x.wnd = w
  rmt : t.rmtWnd ≤ w
  ctrl : ∀ c ∈ x.ctrl, c.wnd ≤ w
  sent : t.sent.length ≤ t.una + w

theorem WindowInv.tx {w : Nat} (h : WindowInv w t x) (hs : TxStep b O x t t') :
    WindowInv w t' x := by
  have h1 := h.rmt
  have h2 := h.sent
  cases hs with
  | fillWindow ps hp =>
    refine ⟨h.wnd, h1, h.ctrl, ?_⟩
    rcases hp with rfl | hp
    · simpa using h2
    · show (t.sent ++ ps).length ≤ t.una + w
      rw [List.length_append]
      omega
  | emit D hD => exact ⟨h.wnd, h1, h.ctrl, h2⟩
  | hear c reg mark hc hf ho =>
    refine ⟨h.wnd, ?_, h.ctrl, ?_⟩
    · show (if reg then c.wnd else t.rmtWnd) ≤ w
      split
      · exact h.ctrl c hc
      · exact h1
    · show t.sent.length ≤ max t.una c.una + w
      have := le_max_left t.una c.una
      omega

theorem WindowInv.rx {w : Nat} (hw : w ≤ b.window) (hF : F) (h : WindowInv w t x)
    (hs : RxStep b F t x x') : WindowInv w t x' := by
  cases hs with
  | accept d hd hf => exact ⟨h.wnd, h.rmt, h.ctrl, h.sent⟩
  | move hm hr => exact ⟨h.wnd, h.rmt, h.ctrl, h.sent⟩
  | take m hm => exact ⟨h.wnd, h.rmt, h.ctrl, h.sent⟩
  | resize w' hn => exact absurd hF hn
  | tell C hC hs =>
    refine ⟨h.wnd, h.rmt, ?_, h.sent⟩
    intro c hc
    rcases hc with hc | hc
    · exact h.ctrl c hc
    · have hx := h.wnd
      have := (hC c hc).exact (by omega)
      omega
  | clear => exact ⟨h.wnd, h.rmt, h.ctrl, h.sent⟩

/-! ## Acknowledged out of order while the window is closed -/

/-- A message that opens the window at `una` was sent before number `una`
arrived; hence the oldest number the sender holds is unacknowledged unless
the window is closed. -/
structure ProbeInv (b : Bounds) (t : Tx P) (x : Rx) : Prop where
  wnd : x.wnd ≤ b.window
  room : ∀ c ∈ x.ctrl, c.wnd ≠ 0 → x.rcv = c.una → x.rcv < x.taken + x.wnd
  order : ∀ c ∈ x.ctrl, c.wnd ≠ 0 → ∀ c' ∈ x.ctrl, c'.ack = some c.una → c.una < c'.una
  heard : ∀ i ∈ t.acked, t.una ≤ i → ∃ c ∈ x.ctrl, c.ack = some i ∧ c.una ≤ t.una
  closed : t.una ∈ t.acked → t.rmtWnd = 0

theorem ProbeInv.tx (hO : O) (h : ProbeInv b t x) (hs : TxStep b O x t t') :
    ProbeInv b t' x := by
  cases hs with
  | fillWindow ps hp => exact ⟨h.wnd, h.room, h.order, h.heard, h.closed⟩
  | emit D hD => exact ⟨h.wnd, h.room, h.order, h.heard, h.closed⟩
  | hear c reg mark hc hf ho =>
    obtain ⟨hreg, hpast⟩ := ho hO
    have hheard : ∀ i ∈ (t.hear c reg mark).acked, max t.una c.una ≤ i →
        (∃ c' ∈ x.ctrl, c'.ack = some i ∧ c'.una ≤ t.una) ∨ c.ack = some i := by
      intro i hi hle
      have hu : t.una ≤ i := le_trans (le_max_left _ _) hle
      unfold Tx.hear at hi
      dsimp only at hi
      split at hi
      · rcases hi with hi | hi
        · exact .inl (h.heard i hi hu)
        · exact .inr hi
      · exact .inl (h.heard i hi hu)
    refine ⟨h.wnd, h.room, h.order, ?_, ?_⟩
    · intro i hi hle
      rcases hheard i hi hle with ⟨c', hc', ha, hu⟩ | ha
      · exact ⟨c', hc', ha, le_trans hu (le_max_left _ _)⟩
      · exact ⟨c, hc, ha, le_max_right _ _⟩
    · intro hi
      show (if reg then c.wnd else t.rmtWnd) = 0
      rw [if_pos hreg]
      by_contra hne
      have hle := hpast hne
      have hmax : max t.una c.una = c.una := max_eq_right hle
      have hi' : c.una ∈ (t.hear c reg mark).acked := by
        have : (t.hear c reg mark).una = c.una := hmax
        rwa [this] at hi
      rcases hheard c.una hi' (le_of_eq hmax) with ⟨c', hc', ha, hu⟩ | ha
      · have := h.order c hc hne c' hc' ha
        omega
      · have := h.order c hc hne c hc ha
        omega

theorem ProbeInv.tell (h : ProbeInv b t x) (hi : Inv b t x) {C : Set Ctrl}
    (hC : ∀ c ∈ C, Tells b t x c) (hs : x.Settled) : ProbeInv b t { x with ctrl := x.ctrl ∪ C } := by
  have htak := hi.taken
  -- an open window tells that the next number has not arrived
  have open_room : ∀ c ∈ C, c.wnd ≠ 0 → x.rcv < x.taken + x.wnd := by
    intro c hc hne
    have := (hC c hc).exact h.wnd
    omega
  have not_next : x.rcv < x.taken + x.wnd → ¬ x.Has x.rcv := by
    rintro hroom (hlt | hst)
    · omega
    · have := hs hst
      omega
  refine ⟨h.wnd, ?_, ?_, fun i hi' hle => ?_, h.closed⟩
  · intro c hc hne he
    rcases hc with hc | hc
    · exact h.room c hc hne he
    · exact open_room c hc hne
  · intro c hc hne c' hc' ha
    rcases hc with hc | hc
    · rcases hc' with hc' | hc'
      · exact h.order c hc hne c' hc' ha
      · -- an old opening, a new acknowledgement
        have hu' := (hC c' hc').una
        have hle := (hi.ctrl c hc).1
        have hhas : x.Has c.una := (hi.acks _ ((hC c' hc').ack _ ha).1).1
        by_contra hnlt
        have he : x.rcv = c.una := by omega
        exact not_next (h.room c hc hne he) (he ▸ hhas)
    · have hu := (hC c hc).una
      have hhas : x.Has c.una := by
        rcases hc' with hc' | hc'
        · exact ((hi.ctrl c' hc').2.2 _ ha).1
        · exact (hi.acks _ ((hC c' hc').ack _ ha).1).1
      exact absurd (hu ▸ hhas) (not_next (open_room c hc hne))
  · obtain ⟨c, hc, e1, e2⟩ := h.heard i hi' hle
    exact ⟨c, .inl hc, e1, e2⟩

theorem ProbeInv.rx (hF : F) (h : ProbeInv b t x) (hi : Inv b t x)
    (hs : RxStep b F t x x') : ProbeInv b t x' := by
  cases hs with
  | accept d hd hf => exact ⟨h.wnd, h.room, h.order, h.heard, h.closed⟩
  | move hm hr =>
    refine ⟨h.wnd, ?_, h.order, h.heard, h.closed⟩
    intro c hc _ he
    have := (hi.ctrl c hc).1
    have : x.rcv + 1 = c.una := he
    omega
  | take m hm =>
    refine ⟨h.wnd, ?_, h.order, h.heard, h.closed⟩
    intro c hc hne he
    have := h.room c hc hne he
    show x.rcv < x.taken + m + x.wnd
    omega
  | resize w hn => exact absurd hF hn
  | tell C hC hs => exact h.tell hi hC (hs hF)
  | clear => exact ⟨h.wnd, h.room, h.order, h.heard, h.closed⟩

end KcpGo.Link
