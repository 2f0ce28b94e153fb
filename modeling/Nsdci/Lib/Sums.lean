import Mathlib.Algebra.BigOperators.Group.List.Basic

/-!
# Sums over a list that changes in one place
-/

namespace Nsdci.Lib

variable {ι M : Type} [AddCommMonoid M]

/-- A sum after one element was taken out. -/
theorem sum_map_eraseIdx (f : ι → M) {xs : List ι} {i : Nat} {x : ι} (h : xs[i]? = some x) :
    ((xs.eraseIdx i).map f).sum + f x = (xs.map f).sum := by
  obtain ⟨hi, rfl⟩ := List.getElem?_eq_some_iff.mp h
  have hi' : i < (xs.map f).length := by rwa [List.length_map]
  have hsum := List.add_sum_eraseIdx hi' fun a _ => AddCommute.all _ a
  rw [List.getElem_map, List.eraseIdx_map] at hsum
  rw [add_comm]
  exact hsum

/-- A sum after one element was replaced. -/
theorem sum_map_set (f : ι → M) {xs : List ι} {i : Nat} {x : ι} (h : xs[i]? = some x) (x' : ι) :
    ((xs.set i x').map f).sum + f x = (xs.map f).sum + f x' := by
  obtain ⟨hi, -⟩ := List.getElem?_eq_some_iff.mp h
  have hset : (xs.set i x')[i]? = some x' := List.getElem?_set_self hi
  rw [← sum_map_eraseIdx f hset, ← sum_map_eraseIdx f h, List.eraseIdx_set_eq, add_right_comm]

end Nsdci.Lib
