import Nsdci.Lib.Decimal
import Nsdci.Lib.Search
import Mathlib.Data.Nat.Digits.Lemmas

/-!
# Numbers of a fixed width

Numbers padded with zeros. When they have the same width, the order of the texts is the order of the
numbers (`strcmp_digits`), and text behind them counts only when they are equal (`strcmp_append`).
-/

namespace Nsdci.Lib

/-- The digits of a number, with zeros before them up to a width. -/
def padded (width n : Nat) : Bytes := List.replicate (width - (digits n).length) 48 ++ digits n

theorem isDigit_of_mem_padded {width n : Nat} {c : UInt8} (h : c ∈ padded width n) : IsDigit c := by
  rcases List.mem_append.mp h with hzero | hdigit
  · obtain rfl := List.eq_of_mem_replicate hzero
    decide
  · exact isDigit_of_mem_digits hdigit

/-- A number has no more digits than it takes. -/
theorem length_digits_le_iff {width n : Nat} (hwidth : 0 < width) :
    (digits n).length ≤ width ↔ n < 10 ^ width := by
  unfold digits
  split_ifs with hn
  · subst hn
    simp only [List.length_singleton]
    exact ⟨fun _ => Nat.pow_pos (by decide), fun _ => hwidth⟩
  · rw [List.length_map, List.length_reverse]
    exact Nat.digits_length_le_iff (by decide) n

/-- A number that is not too large has the width. -/
theorem length_padded {width n : Nat} (hwidth : 0 < width) :
    (padded width n).length = width ↔ n < 10 ^ width := by
  rw [padded, List.length_append, List.length_replicate, ← length_digits_le_iff hwidth]
  omega

theorem length_padded_ge (width n : Nat) : width ≤ (padded width n).length := by
  rw [padded, List.length_append, List.length_replicate]
  omega

theorem digitsValue_cons (c : UInt8) (ds : Bytes) :
    digitsValue (c :: ds) = (c.toNat - 48) * 10 ^ ds.length + digitsValue ds := by
  unfold digitsValue
  rw [List.reverse_cons, List.map_append, Nat.ofDigits_append]
  simp
  ring

/-- Zeros before a number do not change it. -/
theorem digitsValue_padded (width n : Nat) : digitsValue (padded width n) = n := by
  unfold padded
  induction width - (digits n).length with
  | zero => exact digitsValue_digits n
  | succ k ih =>
      rw [List.replicate_succ, List.cons_append, digitsValue_cons, ih]
      simp

/-- Digits stand for less than the number behind the largest. -/
theorem digitsValue_lt {ds : Bytes} (h : ∀ c ∈ ds, IsDigit c) :
    digitsValue ds < 10 ^ ds.length := by
  induction ds with
  | nil => exact Nat.one_pos
  | cons c ds ih =>
      have hc := h c List.mem_cons_self
      have hds := ih fun c' hc' => h c' (List.mem_cons_of_mem c hc')
      have hle : (c.toNat - 48) * 10 ^ ds.length ≤ 9 * 10 ^ ds.length :=
        Nat.mul_le_mul_right _ (by unfold IsDigit at hc; omega)
      rw [digitsValue_cons, List.length_cons, Nat.pow_succ]
      omega

/-- **Digits of the same number are in the order of what they stand for.** -/
theorem strcmp_digits {s t : Bytes} (hs : ∀ c ∈ s, IsDigit c) (ht : ∀ c ∈ t, IsDigit c)
    (hlen : s.length = t.length) : strcmp s t < 0 ↔ digitsValue s < digitsValue t := by
  induction s generalizing t with
  | nil =>
      obtain rfl : t = [] := List.length_eq_zero_iff.mp hlen.symm
      exact ⟨fun h => absurd h (lt_irrefl 0), fun h => absurd h (lt_irrefl _)⟩
  | cons a s ih =>
      obtain ⟨b, t, rfl⟩ : ∃ b t', t = b :: t' :=
        List.exists_cons_of_length_eq_add_one hlen.symm
      have hlen' : s.length = t.length := Nat.succ.inj hlen
      have hs' : ∀ c ∈ s, IsDigit c := fun c hc => hs c (List.mem_cons_of_mem a hc)
      have ht' : ∀ c ∈ t, IsDigit c := fun c hc => ht c (List.mem_cons_of_mem b hc)
      have ha := hs a List.mem_cons_self
      have hb := ht b List.mem_cons_self
      rw [digitsValue_cons, digitsValue_cons, strcmp, ← hlen']
      split_ifs with hab
      · rw [hab, ih hs' ht' hlen']
        exact (Nat.add_lt_add_iff_left).symm
      · -- the first digits decide
        have hne : a.toNat ≠ b.toNat := fun h => hab (UInt8.toNat_inj.mp h)
        have hsv := digitsValue_lt hs'
        have htv := digitsValue_lt ht'
        rw [← hlen'] at htv
        unfold IsDigit at ha hb
        rcases lt_or_gt_of_ne hne with hlt | hgt
        · have hmul : (a.toNat - 48 + 1) * 10 ^ s.length ≤ (b.toNat - 48) * 10 ^ s.length :=
            Nat.mul_le_mul_right _ (by omega)
          rw [Nat.add_mul, Nat.one_mul] at hmul
          omega
        · have hmul : (b.toNat - 48 + 1) * 10 ^ s.length ≤ (a.toNat - 48) * 10 ^ s.length :=
            Nat.mul_le_mul_right _ (by omega)
          rw [Nat.add_mul, Nat.one_mul] at hmul
          omega

/-- What is behind texts of the same length counts only when they are equal. -/
theorem strcmp_append {s t : Bytes} (hlen : s.length = t.length) (s' t' : Bytes) :
    strcmp (s ++ s') (t ++ t') = if s = t then strcmp s' t' else strcmp s t := by
  induction s generalizing t with
  | nil =>
      obtain rfl : t = [] := List.length_eq_zero_iff.mp hlen.symm
      rfl
  | cons a s ih =>
      obtain ⟨b, t, rfl⟩ : ∃ b t', t = b :: t' :=
        List.exists_cons_of_length_eq_add_one hlen.symm
      rw [List.cons_append, List.cons_append, strcmp, strcmp]
      by_cases hab : a = b
      · subst hab
        rw [if_pos rfl, if_pos rfl, ih (Nat.succ.inj hlen)]
        exact if_congr (by rw [List.cons.injEq, and_iff_right rfl]) rfl rfl
      · have hne : a :: s ≠ b :: t := fun h => hab (List.cons.inj h).1
        rw [if_neg hab, if_neg hab, if_neg hne]

end Nsdci.Lib
