import Mathlib.Logic.Function.Basic
import Mathlib.Data.List.Nodup
import Mathlib.Data.List.Perm.Basic

/-!
# Things in places

A list of things for each place. `Places` says that no thing is listed twice. Things that are
removed from a place, put in one, or moved from one to another keep it so.
-/

namespace Nsdci.Lib

open Function

variable {N P : Type}

/-- A thing is on the list of one place at most, and once. -/
structure Places (lists : P → List N) : Prop where
  nodup : ∀ p, (lists p).Nodup
  eq_of_mem : ∀ {p q n}, n ∈ lists p → n ∈ lists q → p = q

namespace Places

variable [DecidableEq P] {lists : P → List N} {p q : P} {moved rest l : List N}

/-- What is left was there. -/
theorem mem_of_drop (hp : (lists p).Perm (moved ++ rest)) {q : P} {n : N}
    (hn : n ∈ update lists p rest q) : n ∈ lists q := by
  by_cases hq : q = p
  · subst hq
    rw [update_self] at hn
    exact hp.mem_iff.mpr (List.mem_append_right moved hn)
  · rwa [update_of_ne hq] at hn

/-- Things are removed from a place. -/
theorem drop (h : Places lists) (hp : (lists p).Perm (moved ++ rest)) :
    Places (update lists p rest) := by
  refine ⟨fun q => ?_, fun hn hn' => h.eq_of_mem (mem_of_drop hp hn) (mem_of_drop hp hn')⟩
  by_cases hq : q = p
  · subst hq
    rw [update_self]
    exact (List.nodup_append.mp (hp.nodup_iff.mp (h.nodup q))).2.1
  · rw [update_of_ne hq]
    exact h.nodup q

/-- What is removed is nowhere. -/
theorem not_mem_drop (h : Places lists) (hp : (lists p).Perm (moved ++ rest)) {n : N}
    (hn : n ∈ moved) (q : P) : n ∉ update lists p rest q := by
  have hnp : n ∈ lists p := hp.mem_iff.mpr (List.mem_append_left rest hn)
  by_cases hq : q = p
  · subst hq
    rw [update_self]
    intro hrest
    exact (List.nodup_append.mp (hp.nodup_iff.mp (h.nodup q))).2.2 n hn n hrest rfl
  · rw [update_of_ne hq]
    exact fun hnq => hq (h.eq_of_mem hnq hnp)

/-- Things that are nowhere are put in a place. -/
theorem add (h : Places lists) (hnodup : moved.Nodup) (hno : ∀ n ∈ moved, ∀ p, n ∉ lists p)
    (hq : l.Perm (moved ++ lists q)) : Places (update lists q l) := by
  have hself : ∀ {n}, n ∈ l → n ∈ moved ∨ n ∈ lists q := by
    intro n hn
    exact List.mem_append.mp (hq.mem_iff.mp hn)
  have hother : ∀ {p n}, p ≠ q → n ∈ lists p → n ∉ l := by
    intro p n hp hn hl
    cases hself hl with
    | inl hmoved => exact hno n hmoved p hn
    | inr hmem => exact hp (h.eq_of_mem hn hmem)
  refine ⟨fun p => ?_, fun {p p' n} hn hn' => ?_⟩
  · by_cases hp : p = q
    · subst hp
      rw [update_self, hq.nodup_iff, List.nodup_append]
      exact ⟨hnodup, h.nodup p, fun n hn m hm hnm => hno n hn p (hnm ▸ hm)⟩
    · rw [update_of_ne hp]
      exact h.nodup p
  · by_cases hp : p = q <;> by_cases hp' : p' = q
    · exact hp.trans hp'.symm
    · rw [hp, update_self] at hn
      rw [update_of_ne hp'] at hn'
      exact absurd hn (hother hp' hn')
    · rw [hp', update_self] at hn'
      rw [update_of_ne hp] at hn
      exact absurd hn' (hother hp hn)
    · rw [update_of_ne hp] at hn
      rw [update_of_ne hp'] at hn'
      exact h.eq_of_mem hn hn'

/-- **Things are moved from one place to another.** -/
theorem move (h : Places lists) (hp : (lists p).Perm (moved ++ rest))
    (hq : l.Perm (moved ++ update lists p rest q)) :
    Places (update (update lists p rest) q l) := by
  refine (h.drop hp).add ?_ (fun n hn => h.not_mem_drop hp hn) hq
  exact (List.nodup_append.mp (hp.nodup_iff.mp (h.nodup p))).1

/-- Adding things to a place puts them somewhere, and leaves what was somewhere there. -/
theorem exists_mem_add (hq : l.Perm (moved ++ lists q)) (n : N) :
    (∃ r, n ∈ update lists q l r) ↔ n ∈ moved ∨ ∃ r, n ∈ lists r := by
  constructor
  · rintro ⟨r, hn⟩
    by_cases hr : r = q
    · rw [hr, update_self, hq.mem_iff] at hn
      exact (List.mem_append.mp hn).imp_right fun hmem => ⟨q, hmem⟩
    · rw [update_of_ne hr] at hn
      exact Or.inr ⟨r, hn⟩
  · rintro (hmoved | ⟨r, hn⟩)
    · refine ⟨q, ?_⟩
      rw [update_self]
      exact hq.mem_iff.mpr (List.mem_append_left _ hmoved)
    · by_cases hr : r = q
      · refine ⟨q, ?_⟩
        rw [update_self]
        exact hq.mem_iff.mpr (List.mem_append_right _ (hr ▸ hn))
      · refine ⟨r, ?_⟩
        rwa [update_of_ne hr]

/-- **What was somewhere before a move is somewhere after it, and nothing else is.** -/
theorem exists_mem_move (hp : (lists p).Perm (moved ++ rest))
    (hq : l.Perm (moved ++ update lists p rest q)) (n : N) :
    (∃ r, n ∈ update (update lists p rest) q l r) ↔ ∃ r, n ∈ lists r := by
  rw [exists_mem_add hq]
  constructor
  · rintro (hmoved | ⟨r, hn⟩)
    · exact ⟨p, hp.mem_iff.mpr (List.mem_append_left rest hmoved)⟩
    · exact ⟨r, mem_of_drop hp hn⟩
  · rintro ⟨r, hn⟩
    by_cases hr : r = p
    · rw [hr, hp.mem_iff] at hn
      refine (List.mem_append.mp hn).imp_right fun hmem => ⟨p, ?_⟩
      rwa [update_self]
    · refine Or.inr ⟨r, ?_⟩
      rwa [update_of_ne hr]

end Places

end Nsdci.Lib
