import Mathlib.Data.Finset.Lattice.Fold
import Mathlib.Order.Lattice.Nat

/-!
# The books of a pool

A pool hands out things that are told apart by numbers and takes them back.
It does not check what it is given: that whoever uses it keeps to the rules
is a property of the program. `Books` records what is out, and for every act
of the program what was held where (`Moment`).

A moment is `Legal` if everything out was held in exactly one place and
nothing else was held at all, and the act was allowed: only what is out is
given back, read or written.

* `Kept.get`, `Kept.put`, `Kept.use`: the acts of a program that keeps the
  rules.
* `Kept.move`: what is only moved stays accounted for.
* `Clean.got_between`: whatever is given back, and then given back again or
  used, was handed out in between.
-/
namespace KcpGo.Ledger

variable {π : Type}

inductive Act where
  | get (b : Nat)
  | put (b : Nat)
  /-- a read or a write -/
  | use (b : Nat)
  deriving DecidableEq

/-- What is out after the act. -/
def Act.on (out : Finset Nat) : Act → Finset Nat
  | .get b => insert b out
  | .put b => out.erase b
  | .use _ => out

/-- What is out after the acts, nothing being out before. -/
def replay (acts : List Act) : Finset Nat := acts.foldl Act.on ∅

@[simp] theorem replay_append_singleton (acts : List Act) (a : Act) : replay (acts ++ [a]) = a.on (replay acts) := by
  simp [replay]

/-- What has been put back is not out until it is handed out again. -/
theorem not_mem_replay (pre : List Act) {b : Nat} {mid : List Act} (h : .get b ∉ mid) :
    b ∉ replay (pre ++ .put b :: mid) := by
  induction mid using List.reverseRecOn with
  | nil =>
    rw [replay_append_singleton]
    exact Finset.notMem_erase b _
  | append_singleton mid a ih =>
    rw [← List.cons_append, ← List.append_assoc, replay_append_singleton]
    have hb := ih fun hm => h (List.mem_append_left _ hm)
    cases a with
    | get c =>
      have hc : b ≠ c := by
        rintro rfl
        exact h (List.mem_append_right _ (List.mem_singleton.2 rfl))
      exact fun hm => (Finset.mem_insert.1 hm).elim hc hb
    | put c => exact fun hm => hb (Finset.mem_of_mem_erase hm)
    | use c => exact hb

/-- How many places of the list hold `b`. -/
def holders (owned : List (π × Nat)) (b : Nat) : Nat := owned.countP fun e => e.2 == b

@[simp] theorem holders_nil (b : Nat) : holders ([] : List (π × Nat)) b = 0 := rfl

@[simp] theorem holders_cons (e : π × Nat) (l : List (π × Nat)) (b : Nat) :
    holders (e :: l) b = holders l b + if e.2 = b then 1 else 0 := by
  simp [holders, List.countP_cons]

@[simp] theorem holders_append (l m : List (π × Nat)) (b : Nat) : holders (l ++ m) b = holders l b + holders m b :=
  List.countP_append

/-- What is out is in one place, what is in the pool in none. -/
def Balanced (owned : List (π × Nat)) (out : Finset Nat) : Prop := ∀ b, holders owned b = if b ∈ out then 1 else 0

/-- An act with what was held and what was out just before it. -/
structure Moment (π : Type) where
  owned : List (π × Nat)
  out : Finset Nat
  act : Act

def Moment.Allowed (m : Moment π) : Prop :=
  match m.act with
  | .get b => b ∉ m.out
  | .put b => b ∈ m.out
  | .use b => b ∈ m.out

structure Moment.Legal (m : Moment π) : Prop where
  balanced : Balanced m.owned m.out
  allowed : m.Allowed

/-- `picks` is what the pool would like to hand out next, and after that. -/
structure Books (π : Type) where
  out : Finset Nat
  picks : Nat → Nat
  log : List (Moment π)

namespace Books

/-- The pool hands out what it pleases, but nothing that is out: then it makes
a new one. -/
def next (bk : Books π) : Nat := if bk.picks 0 ∈ bk.out then bk.out.sup id + 1 else bk.picks 0

def acts (bk : Books π) : List Act := bk.log.map Moment.act

/-- The act is entered, with what is held. -/
def enter (owned : List (π × Nat)) (a : Act) (bk : Books π) : Books π :=
  { bk with out := a.on bk.out, log := bk.log ++ [⟨owned, bk.out, a⟩] }

def get (owned : List (π × Nat)) (bk : Books π) : Books π :=
  { bk.enter owned (.get bk.next) with picks := fun i => bk.picks (i + 1) }

def put (owned : List (π × Nat)) (b : Nat) (bk : Books π) : Books π := bk.enter owned (.put b)

def use (owned : List (π × Nat)) (b : Nat) (bk : Books π) : Books π := bk.enter owned (.use b)

theorem next_not_out (bk : Books π) : bk.next ∉ bk.out := by
  unfold next
  split
  · intro h
    have : bk.out.sup id + 1 ≤ bk.out.sup id := Finset.le_sup (f := id) h
    omega
  · assumption

/-- Every moment so far was legal, and what was out at it is what the acts
before it left out. -/
structure Clean (bk : Books π) : Prop where
  legal : ∀ m ∈ bk.log, m.Legal
  history : ∀ pre m post, bk.log = pre ++ m :: post → m.out = replay (pre.map Moment.act)
  out : bk.out = replay bk.acts

theorem Clean.enter {bk : Books π} (h : bk.Clean) {owned : List (π × Nat)} {a : Act}
    (hm : (⟨owned, bk.out, a⟩ : Moment π).Legal) :
    (bk.enter owned a).Clean where
  legal := by
    intro x hx
    rcases List.mem_append.1 hx with hx | hx
    · exact h.legal x hx
    · exact List.mem_singleton.1 hx ▸ hm
  history := by
    intro pre m post hl
    have hl' : bk.log ++ [⟨owned, bk.out, a⟩] = pre ++ m :: post := hl
    rcases List.append_eq_append_iff.1 hl' with ⟨mid, rfl, hmid⟩ | ⟨mid, hlog, hmid⟩
    · cases mid with
      | nil =>
        obtain rfl : _ = m := (List.cons.inj hmid).1
        rw [List.append_nil]
        exact h.out
      | cons x mid => cases mid <;> cases (List.cons.inj hmid).2
    · cases mid with
      | nil =>
        obtain rfl : m = _ := (List.cons.inj hmid).1
        rw [List.append_nil] at hlog
        rw [← hlog]
        exact h.out
      | cons x mid =>
        obtain ⟨rfl, -⟩ := List.cons.inj hmid
        exact h.history pre m mid hlog
  out := by
    show a.on bk.out = replay ((bk.log ++ [_]).map Moment.act)
    rw [List.map_append, List.map_singleton, replay_append_singleton, h.out]
    rfl

theorem Clean.got_between {bk : Books π} (h : bk.Clean) {pre mid post : List Act} {b : Nat} {a : Act}
    (hl : bk.acts = pre ++ .put b :: mid ++ a :: post) (ha : a = .put b ∨ a = .use b) : .get b ∈ mid := by
  obtain ⟨before, rest, hlog, hbefore, hrest⟩ := List.map_eq_append_iff.1 hl
  obtain ⟨m, after, rfl, rfl, -⟩ := List.map_eq_cons_iff.1 hrest
  have hout := h.history before m after hlog
  have hallowed := (h.legal m (hlog ▸ List.mem_append_right _ List.mem_cons_self)).allowed
  have hb : b ∈ m.out := by
    unfold Moment.Allowed at hallowed
    rcases ha with ha | ha <;> (rw [ha] at hallowed; exact hallowed)
  refine Decidable.byContradiction fun hmid => ?_
  rw [hout, hbefore] at hb
  exact not_mem_replay pre hmid hb

end Books

/-- The books are right and `owned` is what is held. -/
structure Kept (owned : List (π × Nat)) (bk : Books π) : Prop where
  balanced : Balanced owned bk.out
  clean : bk.Clean

namespace Kept

variable {owned owned' : List (π × Nat)} {bk : Books π} {b : Nat}

/-- Nothing was ever handed out. -/
theorem new (picks : Nat → Nat) : Kept ([] : List (π × Nat)) ⟨∅, picks, []⟩ where
  balanced := fun b => rfl
  clean :=
    { legal := fun m hm => nomatch hm
      history := fun pre m post h => by cases pre <;> cases h
      out := rfl }

theorem move (h : Kept owned bk) (he : ∀ b, holders owned' b = holders owned b) : Kept owned' bk :=
  ⟨fun b => (he b).trans (h.balanced b), h.clean⟩

/-- What is held is out. -/
theorem out (h : Kept owned bk) (hb : 0 < holders owned b) : b ∈ bk.out := by
  have := h.balanced b
  split at this
  · assumption
  · omega

theorem get (h : Kept owned bk) (p : π) : Kept ((p, bk.next) :: owned) (bk.get owned) where
  balanced := by
    intro b
    have hnew := h.balanced bk.next
    have hb := h.balanced b
    rw [if_neg bk.next_not_out] at hnew
    rw [holders_cons]
    show _ = if b ∈ insert bk.next bk.out then 1 else 0
    by_cases he : bk.next = b
    · subst he
      simp [hnew]
    · simp [he, Ne.symm he, hb]
  clean :=
    have hc := h.clean.enter (a := .get bk.next) ⟨h.balanced, bk.next_not_out⟩
    ⟨hc.legal, hc.history, hc.out⟩

theorem put (h : Kept owned bk) (he : ∀ c, holders owned c = holders owned' c + if b = c then 1 else 0) :
    Kept owned' (bk.put owned b) where
  balanced := by
    intro c
    have hc := h.balanced c
    have hec := he c
    show _ = if c ∈ bk.out.erase b then 1 else 0
    by_cases hbc : b = c
    · subst hbc
      rw [if_pos rfl] at hec
      rw [if_neg (Finset.notMem_erase b _)]
      split at hc <;> omega
    · rw [if_neg hbc] at hec
      simp only [Finset.mem_erase, ne_eq, Ne.symm hbc, not_false_eq_true, true_and]
      omega
  clean := h.clean.enter ⟨h.balanced, h.out (by rw [he b, if_pos rfl]; omega)⟩

theorem use (h : Kept owned bk) (hb : 0 < holders owned b) : Kept owned (bk.use owned b) :=
  ⟨h.balanced, h.clean.enter ⟨h.balanced, h.out hb⟩⟩

end Kept
end KcpGo.Ledger
