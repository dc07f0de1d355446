import Mathlib.Algebra.GroupWithZero.Nat
import Mathlib.Data.List.AList

/-!
# Finite tables

A Go map is an association list without repeated keys (`AList`). `keep`
deletes the keys that fail a test, as a `range` loop with `delete` does.
`map` changes the values, and `total` adds up a measure of them.
-/
namespace KcpGo

abbrev Table (κ α : Type) := AList fun _ : κ => α

namespace Table

variable {κ α : Type} [DecidableEq κ]

omit [DecidableEq κ] in
theorem keep_nodup (t : Table κ α) (p : κ → Bool) : (t.entries.filter fun e => p e.1).NodupKeys :=
  t.nodupKeys.sublist List.filter_sublist

/-- Only the keys that pass the test. -/
def keep (t : Table κ α) (p : κ → Bool) : Table κ α := ⟨t.entries.filter fun e => p e.1, keep_nodup t p⟩

theorem mem_lookup {t : Table κ α} {k : κ} {a : α} : t.lookup k = some a ↔ Sigma.mk k a ∈ t.entries :=
  AList.mem_lookup_iff

theorem lookup_keep (t : Table κ α) (p : κ → Bool) (k : κ) :
    (keep t p).lookup k = if p k then t.lookup k else none := by
  rw [Option.ext_iff]
  intro a
  have h : (keep t p).lookup k = some a ↔ Sigma.mk k a ∈ t.entries ∧ p k = true := by
    rw [mem_lookup]
    exact List.mem_filter
  rw [h, ← mem_lookup]
  split
  · rename_i hp
    exact and_iff_left hp
  · rename_i hp
    simp [hp]

omit [DecidableEq κ] in
theorem keys_keep (t : Table κ α) (p : κ → Bool) : (keep t p).keys = t.keys.filter p := by
  show (t.entries.filter _).map _ = (t.entries.map _).filter p
  rw [List.filter_map]
  rfl

theorem mem_keys_iff {t : Table κ α} {k : κ} : k ∈ t.keys ↔ ∃ a, t.lookup k = some a := by
  rw [← AList.mem_keys, ← AList.lookup_isSome, Option.isSome_iff_exists]

/-! ## Values -/

section
variable {β : Type} (f : α → β)

def mapEntry (e : Sigma fun _ : κ => α) : Sigma fun _ : κ => β := ⟨e.1, f e.2⟩

omit [DecidableEq κ] in
theorem map_nodup (t : Table κ α) : (t.entries.map (mapEntry f)).NodupKeys := by
  have h : (t.entries.map (mapEntry f)).keys = t.entries.keys := by
    simp [List.keys, mapEntry]
  show (List.keys _).Nodup
  rw [h]
  exact t.nodupKeys

def map (t : Table κ α) : Table κ β := ⟨t.entries.map (mapEntry f), map_nodup f t⟩

omit [DecidableEq κ] in
@[simp] theorem map_empty : map f (∅ : Table κ α) = ∅ := rfl

theorem dlookup_mapEntry (k : κ) (l : List (Sigma fun _ : κ => α)) :
    List.dlookup k (l.map (mapEntry f)) = Option.map f (List.dlookup k l) := by
  induction l with
  | nil => rfl
  | cons e l ih =>
    obtain ⟨k', a⟩ := e
    by_cases h : k = k'
    · subst h
      rw [List.map_cons, mapEntry, List.dlookup_cons_eq, List.dlookup_cons_eq]
      rfl
    · rw [List.map_cons, mapEntry, List.dlookup_cons_ne _ _ h, List.dlookup_cons_ne _ _ h, ih]

theorem kerase_mapEntry (k : κ) (l : List (Sigma fun _ : κ => α)) :
    (List.kerase k l).map (mapEntry f) = List.kerase k (l.map (mapEntry f)) := by
  induction l with
  | nil => rfl
  | cons e l ih =>
    by_cases h : k = e.1
    · rw [List.map_cons, List.kerase_cons_eq h, List.kerase_cons_eq (s := mapEntry f e) h]
    · rw [List.map_cons, List.kerase_cons_ne h, List.kerase_cons_ne (s := mapEntry f e) h, List.map_cons, ih]

theorem lookup_map (t : Table κ α) (k : κ) : (map f t).lookup k = (t.lookup k).map f := dlookup_mapEntry f k t.entries

theorem map_insert (t : Table κ α) (k : κ) (a : α) : map f (t.insert k a) = (map f t).insert k (f a) := by
  refine AList.ext ?_
  show (t.insert k a).entries.map (mapEntry f) = _
  rw [AList.entries_insert, AList.entries_insert, List.map_cons, kerase_mapEntry]
  rfl

omit [DecidableEq κ] in
theorem map_keep (t : Table κ α) (p : κ → Bool) : map f (keep t p) = keep (map f t) p := by
  refine AList.ext ?_
  show (t.entries.filter _).map _ = (t.entries.map _).filter _
  rw [List.filter_map]
  rfl

end

/-- The sum of a measure over the values. -/
def total (f : α → Nat) (t : Table κ α) : Nat := (t.entries.map fun e => f e.2).sum

omit [DecidableEq κ] in
@[simp] theorem total_empty (f : α → Nat) : total f (∅ : Table κ α) = 0 := rfl

theorem sum_kerase (f : α → Nat) (k : κ) (l : List (Sigma fun _ : κ => α)) :
    ((List.kerase k l).map fun e => f e.2).sum + (Option.map f (List.dlookup k l)).getD 0 =
      (l.map fun e => f e.2).sum := by
  induction l with
  | nil => rfl
  | cons e l ih =>
    obtain ⟨k', b⟩ := e
    by_cases h : k = k'
    · subst h
      simp [Nat.add_comm]
    · rw [List.kerase_cons_ne h, List.dlookup_cons_ne _ _ h, List.map_cons, List.map_cons,
        List.sum_cons, List.sum_cons, ← ih,
        Nat.add_assoc]

theorem total_insert (f : α → Nat) (t : Table κ α) (k : κ) (a : α) :
    total f (t.insert k a) + ((t.lookup k).map f).getD 0 = total f t + f a := by
  have h := sum_kerase f k t.entries
  unfold total
  rw [AList.entries_insert, List.map_cons, List.sum_cons, ← h, Nat.add_comm (f _), Nat.add_right_comm]
  rfl

omit [DecidableEq κ] in
theorem total_keep (f : α → Nat) (t : Table κ α) (p : κ → Bool) :
    total f (keep t fun k => !p k) + total f (keep t p) = total f t := by
  show ((t.entries.filter fun e => !p e.1).map _).sum + ((t.entries.filter fun e => p e.1).map _).sum =
    (t.entries.map _).sum
  induction t.entries with
  | nil => rfl
  | cons e l ih =>
    rw [List.filter_cons, List.filter_cons]
    cases p e.1
    · rw [if_pos (Bool.not_false : (!false) = true), if_neg Bool.false_ne_true, List.map_cons,
        List.map_cons, List.sum_cons,
        List.sum_cons]
      omega
    · rw [if_neg (by decide : ¬ (!true) = true), if_pos rfl, List.map_cons, List.map_cons, List.sum_cons, List.sum_cons]
      omega

end Table
end KcpGo
