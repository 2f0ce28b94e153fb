import Mathlib.Logic.Function.Basic
import Mathlib.Tactic.SplitIfs

/-!
# Arrays whose elements know their places

An array without order, and the place of each element in it. An element is removed by moving the
last one to its place.

`Indexed` says that the places are right. Adding an element and removing one keep it
(`Indexed.push`, `Indexed.remove`).
-/

namespace Nsdci.Lib

variable {α : Type*}

/-- The place of every element is right, and nothing else has a place. -/
def Indexed (xs : List α) (place : α → Option Nat) : Prop :=
  ∀ i a, xs[i]? = some a ↔ place a = some i

/-- The array without the element at a place: the last is there now. -/
def swapRemove (xs : List α) (i : Nat) : List α :=
  match xs.getLast? with
  | none => xs
  | some last => (xs.set i last).dropLast

variable {xs : List α} {place : α → Option Nat} {a b : α} {i : Nat}

theorem indexed_nil : Indexed ([] : List α) fun _ => none := by
  intro i a
  exact iff_of_false (by simp) (by simp)

theorem Indexed.lt (h : Indexed xs place) (ha : place a = some i) : i < xs.length :=
  (List.getElem?_eq_some_iff.mp ((h i a).mpr ha)).1

/-- No element has two places. -/
theorem Indexed.inj (h : Indexed xs place) {j : Nat} (hi : xs[i]? = some a)
    (hj : xs[j]? = some a) : i = j :=
  Option.some.inj (((h i a).mp hi).symm.trans ((h j a).mp hj))

theorem Indexed.mem_iff (h : Indexed xs place) : a ∈ xs ↔ place a ≠ none := by
  rw [List.mem_iff_getElem?, Option.ne_none_iff_exists']
  exact exists_congr fun i => h i a

/-- The last element has the last place. -/
theorem Indexed.last (h : Indexed xs place) (hb : xs.getLast? = some b) :
    place b = some (xs.length - 1) := by
  rw [List.getLast?_eq_getElem?] at hb
  exact (h _ b).mp hb

/-- **A new element at the end.** -/
theorem Indexed.push [DecidableEq α] (h : Indexed xs place) (ha : place a = none) :
    Indexed (xs ++ [a]) (Function.update place a (some xs.length)) := by
  intro j c
  by_cases hc : c = a
  · subst hc
    rw [Function.update_self, Option.some.injEq]
    constructor
    · intro hj
      by_contra hne
      have hlt : j < xs.length := by
        have hlen := (List.getElem?_eq_some_iff.mp hj).1
        rw [List.length_append, List.length_singleton] at hlen
        omega
      rw [List.getElem?_append_left hlt, h j c, ha] at hj
      exact nomatch hj
    · rintro rfl
      exact List.getElem?_concat_length
  · rw [Function.update_of_ne hc, ← h j c]
    by_cases hlt : j < xs.length
    · rw [List.getElem?_append_left hlt]
    · rw [List.getElem?_append_right (Nat.le_of_not_lt hlt),
        List.getElem?_eq_none (Nat.le_of_not_lt hlt)]
      refine iff_of_false (fun hj => ?_) (by simp)
      have hmem := List.mem_of_getElem? hj
      exact hc (List.mem_singleton.mp hmem)

theorem swapRemove_eq (hb : xs.getLast? = some b) (i : Nat) :
    swapRemove xs i = (xs.set i b).dropLast := by
  rw [swapRemove, hb]

theorem getElem?_swapRemove (hb : xs.getLast? = some b) (hi : i < xs.length) (j : Nat) :
    (swapRemove xs i)[j]? =
      if j < xs.length - 1 then if j = i then some b else xs[j]? else none := by
  rw [swapRemove_eq hb, List.getElem?_dropLast, List.length_set]
  split_ifs with hj heq
  · rw [heq, List.getElem?_set_self hi]
  · rw [List.getElem?_set_ne (Ne.symm heq)]
  · rfl

/-- **An element is removed.** -/
theorem Indexed.remove [DecidableEq α] (h : Indexed xs place) (ha : place a = some i)
    (hb : xs.getLast? = some b) :
    Indexed (swapRemove xs i) (Function.update (Function.update place b (some i)) a none) := by
  have hi := h.lt ha
  have hat := (h i a).mpr ha
  have hlast := (h _ b).mpr (h.last hb)
  intro j c
  rw [getElem?_swapRemove hb hi]
  by_cases hca : c = a
  · -- it is nowhere
    subst hca
    rw [Function.update_self]
    refine iff_of_false (fun hj => ?_) (by simp)
    split_ifs at hj with hlt heq
    · obtain rfl := Option.some.inj hj
      have hsame := h.inj hat hlast
      omega
    · exact heq (h.inj hj hat)
  · rw [Function.update_of_ne hca]
    by_cases hcb : c = b
    · -- the last one is at its place
      subst hcb
      rw [Function.update_self, Option.some.injEq]
      have hne : i ≠ xs.length - 1 := fun heq => hca (Option.some.inj (by rw [← hlast, ← heq, hat]))
      constructor
      · intro hj
        split_ifs at hj with hlt heq
        · exact heq.symm
        · have hsame := h.inj hj hlast
          omega
      · rintro rfl
        rw [if_pos (by omega), if_pos rfl]
    · -- all others are where they were
      rw [Function.update_of_ne hcb, ← h j c]
      constructor
      · intro hj
        split_ifs at hj with hlt heq
        · exact absurd (Option.some.inj hj).symm hcb
        · exact hj
      · intro hj
        have hlt := (List.getElem?_eq_some_iff.mp hj).1
        have hji : j ≠ i := fun heq => hca (Option.some.inj (by rw [← hj, heq, hat]))
        have hjlast : j ≠ xs.length - 1 := fun heq =>
          hcb (Option.some.inj (by rw [← hj, heq, hlast]))
        rw [if_pos (by omega), if_neg hji]
        exact hj

theorem length_swapRemove (hb : xs.getLast? = some b) (i : Nat) :
    (swapRemove xs i).length = xs.length - 1 := by
  rw [swapRemove_eq hb, List.length_dropLast, List.length_set]

end Nsdci.Lib
