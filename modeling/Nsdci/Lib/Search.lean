import Nsdci.Lib.Memory
import Mathlib.Data.List.Sort

/-!
# Sorting and searching of the C library

`strcmp`, `qsort` and `bsearch`. How `qsort` orders elements that compare equal is left open, and
so is which of several equal elements `bsearch` finds: it finds one exactly when there is one
(`bsearch_isSome_iff`).
-/

namespace Nsdci.Lib

/-- `strcmp`, of which only the sign is used. -/
def strcmp : Bytes → Bytes → Int
  | [], [] => 0
  | [], _ :: _ => -1
  | _ :: _, [] => 1
  | a :: s, b :: t => if a = b then strcmp s t else (a.toNat : Int) - b.toNat

/-- Strings compare equal when they are. -/
theorem strcmp_eq_zero_iff (s t : Bytes) : strcmp s t = 0 ↔ s = t := by
  fun_induction strcmp s t with
  | case1 => exact ⟨fun _ => rfl, fun _ => rfl⟩
  | case2 => simp
  | case3 => simp
  | case4 s t b ih => rw [ih, List.cons.injEq, and_iff_right rfl]
  | case5 a s b t hne =>
      have hnat : a.toNat ≠ b.toNat := fun h => hne (UInt8.toNat_inj.mp h)
      refine ⟨fun h => absurd h (by omega), fun h => absurd (List.cons.inj h).1 hne⟩

/-- The other way around, the sign changes. -/
theorem strcmp_neg_iff (s t : Bytes) : strcmp s t < 0 ↔ 0 < strcmp t s := by
  fun_induction strcmp s t with
  | case1 => exact Iff.rfl
  | case2 => simp [strcmp]
  | case3 => simp [strcmp]
  | case4 s t b ih => rw [ih, strcmp, if_pos rfl]
  | case5 a s b t hne =>
      rw [strcmp, if_neg (Ne.symm hne)]
      omega

/-- The order of strings is transitive. -/
theorem strcmp_trans {s t u : Bytes} (hst : strcmp s t ≤ 0) (htu : strcmp t u ≤ 0) :
    strcmp s u ≤ 0 := by
  fun_induction strcmp s t generalizing u with
  | case1 => exact htu
  | case2 b t =>
      cases u with
      | nil => simp [strcmp] at htu
      | cons c u => simp [strcmp]
  | case3 a s => simp at hst
  | case4 s t b ih =>
      cases u with
      | nil => simp [strcmp] at htu
      | cons c u =>
          unfold strcmp at htu ⊢
          split_ifs at htu ⊢ with hbc
          · exact ih hst htu
          · exact htu
  | case5 a s b t hne =>
      cases u with
      | nil => simp [strcmp] at htu
      | cons c u =>
          have hab : a.toNat ≠ b.toNat := fun h => hne (UInt8.toNat_inj.mp h)
          have hbc : b.toNat ≤ c.toNat := by
            unfold strcmp at htu
            split_ifs at htu with heq
            · rw [heq]
            · omega
          have hac : a ≠ c := by
            rintro rfl
            omega
          rw [strcmp, if_neg hac]
          omega

/-- Strings are in order or the other way around. -/
theorem strcmp_total (s t : Bytes) : strcmp s t ≤ 0 ∨ strcmp t s ≤ 0 := by
  have hneg := strcmp_neg_iff t s
  omega

/-- Before one that is before is before. -/
theorem strcmp_lt_of_le_of_lt {s t u : Bytes} (hst : strcmp s t ≤ 0) (htu : strcmp t u < 0) :
    strcmp s u < 0 := by
  by_contra hsu
  have hus : strcmp u s ≤ 0 := by
    have hneg := strcmp_neg_iff s u
    omega
  have hut := strcmp_trans hus hst
  have hneg := (strcmp_neg_iff t u).mp htu
  omega

/-- Behind one that is behind is behind. -/
theorem strcmp_lt_of_lt_of_le {s t u : Bytes} (hst : strcmp s t < 0) (htu : strcmp t u ≤ 0) :
    strcmp s u < 0 := by
  by_contra hsu
  have hus : strcmp u s ≤ 0 := by
    have hneg := strcmp_neg_iff s u
    omega
  have hts := strcmp_trans htu hus
  have hneg := (strcmp_neg_iff s t).mp hst
  omega

/-- A string that does not begin with another compares alike with all that do. -/
theorem strcmp_append_of_not_prefix {s t : Bytes} (h : ¬t <+: s) (rest rest' : Bytes) :
    strcmp s (t ++ rest) = strcmp s (t ++ rest') := by
  induction t generalizing s with
  | nil => exact absurd s.nil_prefix h
  | cons b t ih =>
      cases s with
      | nil => rfl
      | cons a s =>
          rw [List.cons_append, List.cons_append, strcmp, strcmp]
          split_ifs with hab
          · exact ih fun hprefix => h (List.cons_prefix_cons.mpr ⟨hab.symm, hprefix⟩)
          · rfl

/-- `qsort` with a comparison. -/
structure QSort (α : Type) (cmp : α → α → Int) where
  sort : List α → List α
  perm : ∀ l, (sort l).Perm l
  sorted : ∀ l, (sort l).Pairwise fun a b => cmp a b ≤ 0

/-- Sorting by insertion is one. -/
def QSort.insertion {α : Type} {cmp : α → α → Int}
    (htotal : ∀ a b, cmp a b ≤ 0 ∨ cmp b a ≤ 0)
    (htrans : ∀ a b c, cmp a b ≤ 0 → cmp b c ≤ 0 → cmp a c ≤ 0) : QSort α cmp where
  sort l := l.insertionSort fun a b => cmp a b ≤ 0
  perm := List.perm_insertionSort fun a b => cmp a b ≤ 0
  sorted l :=
    have : Std.Total fun a b => cmp a b ≤ 0 := ⟨htotal⟩
    have : IsTrans α fun a b => cmp a b ≤ 0 := ⟨htrans⟩
    List.pairwise_insertionSort (fun a b => cmp a b ≤ 0) l

variable {α : Type} {cmp : α → Int}

/-- `bsearch` of a key in a sorted array: the element in the middle, or the half it leaves. -/
def bsearch (cmp : α → Int) : Nat → List α → Option α
  | 0, _ => none
  | nel + 1, base =>
      match base[base.length / 2]? with
      | none => none
      | some e =>
          if cmp e < 0 then bsearch cmp nel (base.take (base.length / 2))
          else if 0 < cmp e then bsearch cmp nel (base.drop (base.length / 2 + 1))
          else some e

/-- What is found is there, and compares equal. -/
theorem bsearch_some {nel : Nat} {base : List α} {e : α} (h : bsearch cmp nel base = some e) :
    e ∈ base ∧ cmp e = 0 := by
  fun_induction bsearch cmp nel base with
  | case1 => exact absurd h (by simp)
  | case2 => exact absurd h (by simp)
  | case3 _ base _ _ _ ih => exact (ih h).imp_left List.mem_of_mem_take
  | case4 _ base _ _ _ _ ih => exact (ih h).imp_left List.mem_of_mem_drop
  | case5 _ base e' hmid hlt hgt =>
      obtain rfl := Option.some.inj h
      exact ⟨List.mem_of_getElem? hmid, by omega⟩

/-- An element that compares equal is found, or another. -/
theorem bsearch_isSome {nel : Nat} {base : List α} {e : α}
    (hbelow : base.Pairwise fun a b => cmp a < 0 → cmp b < 0)
    (habove : base.Pairwise fun a b => 0 < cmp b → 0 < cmp a) (hnel : base.length ≤ nel)
    (he : e ∈ base) (hcmp : cmp e = 0) : (bsearch cmp nel base).isSome := by
  fun_induction bsearch cmp nel base with
  | case1 base =>
      obtain rfl : base = [] := List.eq_nil_of_length_eq_zero (by omega)
      exact absurd he List.not_mem_nil
  | case2 _ base hmid =>
      have hpos := List.length_pos_of_mem he
      rw [List.getElem?_eq_none_iff] at hmid
      omega
  | case3 _ base e' hmid hlt ih =>
      obtain ⟨hlt', rfl⟩ := List.getElem?_eq_some_iff.mp hmid
      -- what is equal is before the middle
      have hsplit := List.take_append_drop (base.length / 2) base
      rw [List.drop_eq_getElem_cons hlt'] at hsplit
      have hmem : e ∈ base.take (base.length / 2) := by
        rw [← hsplit, List.mem_append, List.mem_cons] at he
        rcases he with he | rfl | he
        · exact he
        · omega
        · rw [← hsplit, List.pairwise_append, List.pairwise_cons] at hbelow
          have hneg := hbelow.2.1.1 e he hlt
          omega
      refine ih (hbelow.sublist (List.take_sublist _ _)) (habove.sublist (List.take_sublist _ _)) ?_
        hmem
      rw [List.length_take]
      omega
  | case4 _ base e' hmid hlt hgt ih =>
      obtain ⟨hlt', rfl⟩ := List.getElem?_eq_some_iff.mp hmid
      have hsplit := List.take_append_drop (base.length / 2) base
      rw [List.drop_eq_getElem_cons hlt'] at hsplit
      have hmem : e ∈ base.drop (base.length / 2 + 1) := by
        rw [← hsplit, List.mem_append, List.mem_cons] at he
        rcases he with he | rfl | he
        · rw [← hsplit, List.pairwise_append] at habove
          have hpos := habove.2.2 e he _ List.mem_cons_self hgt
          omega
        · omega
        · exact he
      refine ih (hbelow.sublist (List.drop_sublist _ _)) (habove.sublist (List.drop_sublist _ _)) ?_
        hmem
      rw [List.length_drop]
      omega
  | case5 => rfl

/-- **A search finds something exactly when something compares equal.** -/
theorem bsearch_isSome_iff {base : List α}
    (hbelow : base.Pairwise fun a b => cmp a < 0 → cmp b < 0)
    (habove : base.Pairwise fun a b => 0 < cmp b → 0 < cmp a) :
    (bsearch cmp base.length base).isSome ↔ ∃ e ∈ base, cmp e = 0 := by
  constructor
  · intro h
    obtain ⟨e, he⟩ := Option.isSome_iff_exists.mp h
    exact ⟨e, bsearch_some he⟩
  · intro ⟨e, he, hcmp⟩
    exact bsearch_isSome hbelow habove le_rfl he hcmp

end Nsdci.Lib
