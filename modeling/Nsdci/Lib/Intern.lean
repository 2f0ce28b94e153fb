import Mathlib.Data.List.Nodup
import Mathlib.Data.List.Infix

/-!
# Bounded tables of distinct values

A table keeps each value once, in the order of their first use, up to a limit. A use gives the place
of the value, or none when the table is full without it. `internAll` is the table after some uses.

Places do not change: what a use gave is the place of the value in every later table
(`intern_internAll`).
-/

namespace Nsdci.Lib

variable {α : Type*} [DecidableEq α] (limit : Nat)

/-- The table after a use of a value, and its place. -/
def intern (table : List α) (a : α) : List α × Option Nat :=
  if a ∈ table then (table, some (table.idxOf a))
  else if table.length = limit then (table, none)
  else (table ++ [a], some table.length)

/-- The table after uses of values. -/
def internAll (table as : List α) : List α :=
  as.foldl (fun table a => (intern limit table a).1) table

variable {limit} {table final as : List α} {a : α}

theorem prefix_intern (limit : Nat) (table : List α) (a : α) :
    table <+: (intern limit table a).1 := by
  unfold intern
  split_ifs
  · exact List.prefix_refl _
  · exact List.prefix_refl _
  · exact List.prefix_append _ _

theorem prefix_internAll (limit : Nat) (table as : List α) :
    table <+: internAll limit table as := by
  induction as generalizing table with
  | nil => exact List.prefix_refl _
  | cons a as ih => exact (prefix_intern limit table a).trans (ih _)

theorem nodup_intern (h : table.Nodup) (a : α) : (intern limit table a).1.Nodup := by
  unfold intern
  split_ifs with hmem hfull
  · exact h
  · exact h
  · exact List.Nodup.append h (List.nodup_singleton a) (by simpa using hmem)

/-- **No value is kept twice.** -/
theorem nodup_internAll (h : table.Nodup) (as : List α) : (internAll limit table as).Nodup := by
  induction as generalizing table with
  | nil => exact h
  | cons a as ih => exact ih (nodup_intern h a)

theorem length_intern (h : table.length ≤ limit) (a : α) :
    (intern limit table a).1.length ≤ limit := by
  unfold intern
  split_ifs with hmem hfull
  · exact h
  · exact h
  · rw [List.length_append]
    exact Nat.succ_le_of_lt (lt_of_le_of_ne h hfull)

/-- **The table keeps to its limit.** -/
theorem length_internAll (h : table.length ≤ limit) (as : List α) :
    (internAll limit table as).length ≤ limit := by
  induction as generalizing table with
  | nil => exact h
  | cons a as ih => exact ih (length_intern h a)

theorem intern_full (h : table.length = limit) (a : α) : (intern limit table a).1 = table := by
  unfold intern
  split_ifs
  · rfl
  · rfl

/-- A full table stays as it is. -/
theorem internAll_full (h : table.length = limit) (as : List α) :
    internAll limit table as = table := by
  induction as with
  | nil => rfl
  | cons a as ih =>
      rw [internAll, List.foldl_cons, intern_full h]
      exact ih

theorem mem_intern (limit : Nat) (table : List α) (a : α) :
    a ∈ (intern limit table a).1 ∨ (intern limit table a).1.length = limit := by
  unfold intern
  split_ifs with hmem hfull
  · exact Or.inl hmem
  · exact Or.inr hfull
  · exact Or.inl (List.mem_append_right _ (List.mem_singleton_self a))

/-- **A value that was used is in the table, or the table is full.** -/
theorem mem_internAll (limit : Nat) (table : List α) {as : List α} (h : a ∈ as) :
    a ∈ internAll limit table as ∨ (internAll limit table as).length = limit := by
  induction as generalizing table with
  | nil => exact absurd h List.not_mem_nil
  | cons b as ih =>
      rcases List.mem_cons.mp h with rfl | h
      · rcases mem_intern limit table a with hmem | hfull
        · exact Or.inl ((prefix_internAll limit _ as).subset hmem)
        · refine Or.inr ?_
          show (internAll limit (intern limit table a).1 as).length = limit
          rw [internAll_full hfull]
          exact hfull
      · exact ih _ h

/-- What is in the table was used, or was there before. -/
theorem mem_of_mem_internAll (h : a ∈ internAll limit table as) : a ∈ table ∨ a ∈ as := by
  induction as generalizing table with
  | nil => exact Or.inl h
  | cons b as ih =>
      rcases ih h with hmem | hmem
      · change a ∈ (intern limit table b).1 at hmem
        unfold intern at hmem
        split_ifs at hmem
        · exact Or.inl hmem
        · exact Or.inl hmem
        · rcases List.mem_append.mp hmem with hmem | hmem
          · exact Or.inl hmem
          · exact Or.inr (List.mem_singleton.mp hmem ▸ List.mem_cons_self)
      · exact Or.inr (List.mem_cons_of_mem _ hmem)

/-- **What a use gives is right for every later table.** -/
theorem intern_internAll (table as : List α) (a : α) : (intern limit table a).2 =
    if a ∈ internAll limit table (a :: as) then some ((internAll limit table (a :: as)).idxOf a)
    else none := by
  have hlater : internAll limit table (a :: as) = internAll limit (intern limit table a).1 as := rfl
  obtain ⟨more, hmore⟩ := prefix_internAll limit (intern limit table a).1 as
  rw [hlater, ← hmore]
  by_cases hmem : a ∈ table
  · have hintern : intern limit table a = (table, some (table.idxOf a)) := if_pos hmem
    rw [hintern, if_pos (List.mem_append_left _ hmem), List.idxOf_append_of_mem hmem]
  · by_cases hfull : table.length = limit
    · have hintern : intern limit table a = (table, none) := by
        rw [intern, if_neg hmem, if_pos hfull]
      rw [hintern] at hmore ⊢
      rw [internAll_full hfull] at hmore
      rw [hmore, if_neg hmem]
    · have hintern : intern limit table a = (table ++ [a], some table.length) := by
        rw [intern, if_neg hmem, if_neg hfull]
      have hself : a ∈ table ++ [a] := List.mem_append_right _ (List.mem_singleton_self a)
      rw [hintern, if_pos (List.mem_append_left _ hself), List.idxOf_append_of_mem hself,
        List.idxOf_append_of_notMem hmem, List.idxOf_cons_self]
      rfl

end Nsdci.Lib
