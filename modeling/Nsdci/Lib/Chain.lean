import Mathlib.Logic.Function.Basic
import Mathlib.Data.List.Nodup

/-!
# Linked chains

Nodes with a pointer to the next one, as an array `next` of pointers. A chain is what is reached
from a head by following the pointers up to a null one. In `Chains` every node of a set is on the
chain of exactly one place, and moving a node from the front of one chain to the front or the back
of another, or a whole chain, keeps that.
-/

namespace Nsdci.Lib

open Function

variable {N P : Type}

/-- The nodes reached from a pointer. -/
def Chain (next : N → Option N) : Option N → List N → Prop
  | p, [] => p = none
  | p, n :: l => p = some n ∧ Chain next (next n) l

namespace Chain

variable {next : N → Option N} {p : Option N} {l : List N}

/-- From a null pointer nothing is reached. -/
theorem eq_nil (h : Chain next none l) : l = [] := by
  cases l with
  | nil => rfl
  | cons n l => exact absurd h.1 (by simp)

/-- From a pointer to a node, the node and what is reached from the next one. -/
theorem eq_cons {n : N} (h : Chain next (some n) l) :
    ∃ rest, l = n :: rest ∧ Chain next (next n) rest := by
  cases l with
  | nil => exact absurd h (by simp [Chain])
  | cons m rest =>
      obtain rfl : n = m := Option.some.inj h.1
      exact ⟨rest, rfl, h.2⟩

variable [DecidableEq N]

/-- A pointer of a node that is not on the chain does not matter. -/
theorem update {n : N} (h : Chain next p l) (hn : n ∉ l) (q : Option N) :
    Chain (update next n q) p l := by
  induction l generalizing p with
  | nil => exact h
  | cons m l ih =>
      have hne : m ≠ n := fun heq => hn (by simp [heq])
      refine ⟨h.1, ?_⟩
      rw [update_of_ne hne]
      exact ih h.2 fun hmem => hn (List.mem_cons_of_mem _ hmem)

/-- A node in front. -/
theorem push {n : N} (h : Chain next p l) (hn : n ∉ l) :
    Chain (Function.update next n p) (some n) (n :: l) := by
  refine ⟨rfl, ?_⟩
  rw [update_self]
  exact h.update hn p

/-- A node that points nowhere, alone. -/
theorem single (n : N) : Chain (Function.update next n none) (some n) [n] := by
  refine ⟨rfl, ?_⟩
  rw [update_self]
  exact rfl

/-- A node behind the last one. -/
theorem append {n last : N} (h : Chain next p l) (hnodup : l.Nodup) (hn : n ∉ l)
    (hlast : l.getLast? = some last) :
    Chain (Function.update (Function.update next n none) last (some n)) p (l ++ [n]) := by
  induction l generalizing p with
  | nil => simp at hlast
  | cons m l ih =>
      rw [List.nodup_cons] at hnodup
      have hnm : n ≠ m := fun heq => hn (by simp [heq])
      have hnl : n ∉ l := fun hmem => hn (List.mem_cons_of_mem _ hmem)
      refine ⟨h.1, ?_⟩
      cases l with
      | nil =>
          -- the last node is the first, and it points to the new one
          obtain rfl : m = last := by simpa using hlast
          rw [update_self]
          refine ⟨rfl, ?_⟩
          rw [update_of_ne hnm, update_self]
          exact rfl
      | cons m' l =>
          rw [List.getLast?_cons_cons] at hlast
          have hmem : last ∈ m' :: l := List.mem_of_getLast? hlast
          have hne : m ≠ last := fun heq => hnodup.1 (heq ▸ hmem)
          rw [update_of_ne hne, update_of_ne hnm.symm]
          exact ih h.2 hnodup.2 hnl hlast

end Chain

/-- Every node of the set is on the chain of one place. -/
structure Chains (nodes : List N) (next : N → Option N) (head : P → Option N)
    (lists : P → List N) (place : N → P) : Prop where
  chain : ∀ p, Chain next (head p) (lists p)
  nodup : ∀ p, (lists p).Nodup
  mem : ∀ p n, n ∈ lists p ↔ n ∈ nodes ∧ place n = p

namespace Chains

variable [DecidableEq N] [DecidableEq P] {nodes : List N} {next : N → Option N}
  {head : P → Option N} {lists : P → List N} {place : N → P}

omit [DecidableEq N] [DecidableEq P] in
/-- **Every node is on one chain.** -/
theorem unique (h : Chains nodes next head lists place) {n : N} (hn : n ∈ nodes) :
    ∃! p, n ∈ lists p :=
  ⟨place n, (h.mem _ n).mpr ⟨hn, rfl⟩, fun p hp => ((h.mem p n).mp hp).2.symm⟩

omit [DecidableEq N] [DecidableEq P] in
/-- The first node of a chain. -/
theorem first (h : Chains nodes next head lists place) {p : P} {n : N} (hn : head p = some n) :
    ∃ rest, lists p = n :: rest ∧ Chain next (next n) rest ∧ n ∉ rest ∧ n ∈ nodes ∧
      place n = p := by
  obtain ⟨rest, hlist, hrest⟩ := (hn ▸ h.chain p : Chain next (some n) (lists p)).eq_cons
  have hnodup := h.nodup p
  rw [hlist, List.nodup_cons] at hnodup
  have hmem := (h.mem p n).mp (by simp [hlist])
  exact ⟨rest, hlist, hrest, hnodup.1, hmem.1, hmem.2⟩

/-- What moving a node from the front of one chain into another one needs. -/
theorem move {p q : P} {n : N} {rest list : List N} {next' : N → Option N} {head' : Option N}
    (h : Chains nodes next head lists place) (hpq : p ≠ q) (hn : head p = some n)
    (hlist : lists p = n :: rest)
    (hother : ∀ r, r ≠ q → ∀ s, n ∉ s → (∀ m ∈ s, m ∉ lists q) → ∀ a,
      Chain next a s → Chain next' a s)
    (hchain : Chain next' head' list) (hnodup : list.Nodup)
    (hmem : ∀ m, m ∈ list ↔ m = n ∨ m ∈ lists q) :
    Chains nodes next' (update (update head p (next n)) q head')
      (update (update lists p rest) q list) (update place n q) := by
  obtain ⟨rest', hlist', hrest, hn_rest, hn_nodes, hplace⟩ := h.first hn
  obtain rfl : rest = rest' := by
    rw [hlist] at hlist'
    exact (List.cons.inj hlist').2
  have hdisjoint : ∀ r, r ≠ q → ∀ m ∈ lists r, m ∉ lists q := by
    intro r hr m hm hmq
    exact hr (((h.mem r m).mp hm).2.symm.trans ((h.mem q m).mp hmq).2)
  refine ⟨fun r => ?_, fun r => ?_, fun r m => ?_⟩
  · by_cases hrq : r = q
    · subst hrq
      rw [update_self, update_self]
      exact hchain
    · rw [update_of_ne hrq, update_of_ne hrq]
      by_cases hrp : r = p
      · subst hrp
        rw [update_self, update_self]
        refine hother r hrq rest hn_rest (fun m hm => ?_) _ hrest
        exact hdisjoint r hrq m (by rw [hlist]; exact List.mem_cons_of_mem _ hm)
      · rw [update_of_ne hrp, update_of_ne hrp]
        have hnr : n ∉ lists r := fun hmem' => hrp (((h.mem r n).mp hmem').2.symm.trans hplace)
        exact hother r hrq _ hnr (hdisjoint r hrq) _ (h.chain r)
  · by_cases hrq : r = q
    · subst hrq
      rw [update_self]
      exact hnodup
    · rw [update_of_ne hrq]
      by_cases hrp : r = p
      · subst hrp
        rw [update_self]
        have := h.nodup r
        rw [hlist, List.nodup_cons] at this
        exact this.2
      · rw [update_of_ne hrp]
        exact h.nodup r
  · by_cases hmn : m = n
    · subst hmn
      rw [update_self]
      by_cases hrq : r = q
      · subst hrq
        rw [update_self, hmem]
        simp [hn_nodes]
      · rw [update_of_ne hrq]
        have hno : m ∉ update lists p rest r := by
          by_cases hrp : r = p
          · subst hrp
            rwa [update_self]
          · rw [update_of_ne hrp]
            exact fun hmem' => hrp (((h.mem r m).mp hmem').2.symm.trans hplace)
        simp [hno, Ne.symm hrq]
    · rw [update_of_ne hmn]
      by_cases hrq : r = q
      · subst hrq
        rw [update_self, hmem, ← h.mem]
        simp [hmn]
      · rw [update_of_ne hrq]
        by_cases hrp : r = p
        · subst hrp
          rw [update_self, ← h.mem, hlist]
          simp [hmn]
        · rw [update_of_ne hrp]
          exact h.mem r m

/-- **A node moved from the front of one chain to the front of another.** -/
theorem move_front {p q : P} {n : N} (h : Chains nodes next head lists place) (hpq : p ≠ q)
    (hn : head p = some n) :
    Chains nodes (update next n (head q)) (update (update head p (next n)) q (some n))
      (update (update lists p (lists p).tail) q (n :: lists q)) (update place n q) := by
  obtain ⟨rest, hlist, -, -, -, hplace⟩ := h.first hn
  have hnq : n ∉ lists q := fun hmem => hpq (hplace.symm.trans ((h.mem q n).mp hmem).2)
  rw [hlist, List.tail_cons]
  refine h.move hpq hn hlist (fun r _ s hs _ a hchain => hchain.update hs _)
    ((h.chain q).push hnq) (List.nodup_cons.mpr ⟨hnq, h.nodup q⟩) ?_
  intro m
  exact List.mem_cons

/-- **A node moved from the front of one chain to the back of another**, by way of a pointer to the
last node there. -/
theorem move_back {p q : P} {n : N} (h : Chains nodes next head lists place) (hpq : p ≠ q)
    (hn : head p = some n) {next' : N → Option N} {head' : Option N}
    (hempty : head q = none → next' = update next n none ∧ head' = some n)
    (hfull : ∀ m, head q = some m → head' = some m ∧
      ∃ last, (lists q).getLast? = some last ∧
        next' = update (update next n none) last (some n)) :
    Chains nodes next' (update (update head p (next n)) q head')
      (update (update lists p (lists p).tail) q (lists q ++ [n])) (update place n q) := by
  obtain ⟨rest, hlist, -, -, -, hplace⟩ := h.first hn
  have hnq : n ∉ lists q := fun hmem => hpq (hplace.symm.trans ((h.mem q n).mp hmem).2)
  have hnodup : (lists q ++ [n]).Nodup := by
    refine List.Nodup.append (h.nodup q) (List.nodup_singleton n) ?_
    intro m hm hm'
    obtain rfl : m = n := by simpa using hm'
    exact hnq hm
  have hmem : ∀ m, m ∈ lists q ++ [n] ↔ m = n ∨ m ∈ lists q := by
    intro m
    rw [List.mem_append, List.mem_singleton, or_comm]
  rw [hlist, List.tail_cons]
  cases hq : head q with
  | none =>
      obtain ⟨rfl, rfl⟩ := hempty hq
      have hnil : lists q = [] := (hq ▸ h.chain q : Chain next none (lists q)).eq_nil
      refine h.move hpq hn hlist (fun r _ s hs _ a hchain => hchain.update hs _) ?_ hnodup hmem
      rw [hnil]
      exact Chain.single n
  | some m =>
      obtain ⟨rfl, last, hlast, rfl⟩ := hfull m hq
      refine h.move hpq hn hlist (fun r _ s hs hdisjoint a hchain => ?_) ?_ hnodup hmem
      · have hlast_mem : last ∉ s := fun hs' =>
          hdisjoint last hs' (List.mem_of_getLast? hlast)
        exact (hchain.update hs _).update hlast_mem _
      · exact (hq ▸ h.chain q : Chain next (some m) (lists q)).append (h.nodup q) hnq hlast

omit [DecidableEq N] in
/-- **A whole chain moved to a place where there is none.** -/
theorem move_all {p q : P} (h : Chains nodes next head lists place) (hpq : p ≠ q)
    (hempty : head q = none) :
    Chains nodes next (update (update head p none) q (head p))
      (update (update lists p []) q (lists p))
      (fun n => if place n = p then q else place n) := by
  have hnil : lists q = [] := (hempty ▸ h.chain q : Chain next none (lists q)).eq_nil
  refine ⟨fun r => ?_, fun r => ?_, fun r n => ?_⟩
  · by_cases hrq : r = q
    · subst hrq
      rw [update_self, update_self]
      exact h.chain p
    · rw [update_of_ne hrq, update_of_ne hrq]
      by_cases hrp : r = p
      · subst hrp
        rw [update_self, update_self]
        exact rfl
      · rw [update_of_ne hrp, update_of_ne hrp]
        exact h.chain r
  · by_cases hrq : r = q
    · subst hrq
      rw [update_self]
      exact h.nodup p
    · rw [update_of_ne hrq]
      by_cases hrp : r = p
      · subst hrp
        rw [update_self]
        exact List.nodup_nil
      · rw [update_of_ne hrp]
        exact h.nodup r
  · have hno : n ∈ nodes → place n ≠ q := by
      intro hn hplace
      have hmem := (h.mem q n).mpr ⟨hn, hplace⟩
      rw [hnil] at hmem
      exact absurd hmem List.not_mem_nil
    by_cases hrq : r = q
    · subst hrq
      rw [update_self, h.mem]
      by_cases hplace : place n = p
      · simp [hplace]
      · simp only [hplace, if_false, and_false, false_iff, not_and]
        exact hno
    · rw [update_of_ne hrq]
      by_cases hrp : r = p
      · subst hrp
        rw [update_self]
        by_cases hplace : place n = r
        · simp [hplace, Ne.symm hrq]
        · simp [hplace]
      · rw [update_of_ne hrp, h.mem]
        by_cases hplace : place n = p
        · simp [hplace, Ne.symm hrq, Ne.symm hrp]
        · simp [hplace]

end Chains

end Nsdci.Lib
