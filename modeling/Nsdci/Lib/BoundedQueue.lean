import Mathlib.Data.List.DropRight
import Mathlib.Order.Basic

/-!
# Bounded queues

A bounded queue holds values under growing keys, the oldest first. A push puts a value under a key
above all others at the end and drops the oldest entries beyond a maximum. A delete takes out the
entry with a key.
-/

namespace Nsdci.Lib

/-- Values under growing keys. -/
@[ext] structure BoundedQueue (κ α : Type) [LT κ] where
  entries : List (κ × α)
  increasing : (entries.map Prod.fst).Pairwise (· < ·)

namespace BoundedQueue

variable {κ α : Type} [LT κ]

/-- The keys, from the oldest entry to the newest. -/
def keys (q : BoundedQueue κ α) : List κ := q.entries.map Prod.fst

/-- The queue without entries. -/
def empty : BoundedQueue κ α := ⟨[], List.Pairwise.nil⟩

/-- The key is above all others. -/
def Fresh (q : BoundedQueue κ α) (k : κ) : Prop := ∀ j ∈ q.keys, j < k

/-- Keys of a part of the entries grow too. -/
theorem increasing_of_sublist (q : BoundedQueue κ α) {entries : List (κ × α)}
    (h : entries.Sublist q.entries) : (entries.map Prod.fst).Pairwise (· < ·) :=
  q.increasing.sublist (h.map Prod.fst)

/-- An entry at the end. -/
def append (q : BoundedQueue κ α) (k : κ) (hk : q.Fresh k) (x : α) : BoundedQueue κ α where
  entries := q.entries ++ [(k, x)]
  increasing := by
    rw [List.map_append]
    refine List.pairwise_append.mpr ⟨q.increasing, List.pairwise_singleton _ _, ?_⟩
    intro j hj j' hj'
    obtain rfl : j' = k := by simpa using hj'
    exact hk j hj

/-- The newest entries, at most this many. -/
def newest (q : BoundedQueue κ α) (maximum : Nat) : BoundedQueue κ α where
  entries := q.entries.rtake maximum
  increasing := q.increasing_of_sublist (List.drop_sublist _ _)

/-- **An entry at the end, and the oldest entries beyond the maximum dropped.** -/
def push (q : BoundedQueue κ α) (maximum : Nat) (k : κ) (hk : q.Fresh k) (x : α) :
    BoundedQueue κ α :=
  (q.append k hk x).newest maximum

/-- **The other entries, in order.** -/
def delete [DecidableEq κ] (q : BoundedQueue κ α) (k : κ) : BoundedQueue κ α where
  entries := q.entries.filter (·.1 ≠ k)
  increasing := q.increasing_of_sublist List.filter_sublist

@[simp] theorem entries_empty : (empty : BoundedQueue κ α).entries = [] := rfl

@[simp] theorem entries_delete [DecidableEq κ] (q : BoundedQueue κ α) (k : κ) :
    (q.delete k).entries = q.entries.filter (·.1 ≠ k) := rfl

/-- No key stands twice. -/
theorem nodup_keys {κ α : Type} [Preorder κ] (q : BoundedQueue κ α) : q.keys.Nodup :=
  q.increasing.imp fun h => ne_of_lt h

/-- What a push leaves: one less than the maximum of the old entries, and the new one. -/
theorem entries_push (q : BoundedQueue κ α) (n : Nat) (k : κ) (hk : q.Fresh k) (x : α) :
    (q.push (n + 1) k hk x).entries = q.entries.rtake n ++ [(k, x)] :=
  List.rtake_concat_succ _ _ _

/-- A push keeps the length within the maximum. -/
theorem length_push_le (q : BoundedQueue κ α) (maximum : Nat) (k : κ) (hk : q.Fresh k) (x : α) :
    (q.push maximum k hk x).entries.length ≤ maximum := by
  show ((q.entries ++ [(k, x)]).rtake maximum).length ≤ maximum
  rw [List.rtake, List.length_drop]
  omega

/-- A delete adds nothing. -/
theorem length_delete_le [DecidableEq κ] (q : BoundedQueue κ α) (k : κ) :
    (q.delete k).entries.length ≤ q.entries.length :=
  List.length_filter_le _ _

/-- The keys after a push were there, or are the new one. -/
theorem mem_keys_push {q : BoundedQueue κ α} {maximum : Nat} {k j : κ} {hk : q.Fresh k} {x : α}
    (h : j ∈ (q.push maximum k hk x).keys) : j ∈ q.keys ∨ j = k := by
  obtain ⟨e, he, rfl⟩ := List.mem_map.mp h
  have hmem : e ∈ q.entries ++ [(k, x)] := (List.drop_sublist _ _).subset he
  rcases List.mem_append.mp hmem with hold | hnew
  · exact Or.inl (List.mem_map.mpr ⟨e, hold, rfl⟩)
  · obtain rfl : e = (k, x) := by simpa using hnew
    exact Or.inr rfl

/-- The keys after a delete were there. -/
theorem mem_keys_delete [DecidableEq κ] {q : BoundedQueue κ α} {k j : κ}
    (h : j ∈ (q.delete k).keys) :
    j ∈ q.keys := by
  obtain ⟨e, he, rfl⟩ := List.mem_map.mp h
  exact List.mem_map.mpr ⟨e, List.filter_sublist.subset he, rfl⟩

end BoundedQueue

end Nsdci.Lib
