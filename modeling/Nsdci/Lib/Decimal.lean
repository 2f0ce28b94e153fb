import Nsdci.Lib.Memory
import Mathlib.Data.Nat.Digits.Defs

/-!
# Decimal numbers as text

`decimal x` is what `printf` writes for `%d`; `parseDecimal` reads it back.
-/

namespace Nsdci.Lib

/-- The digits of `n`, most significant first. -/
def digits (n : Nat) : Bytes :=
  if n = 0 then [48] else (Nat.digits 10 n).reverse.map fun d => UInt8.ofNat (48 + d)

/-- The text of an integer (`%d`). -/
def decimal (x : Int) : Bytes :=
  if x < 0 then 45 :: digits x.natAbs else digits x.natAbs

/-- A digit. -/
def IsDigit (c : UInt8) : Prop := 48 ≤ c.toNat ∧ c.toNat < 58

instance (c : UInt8) : Decidable (IsDigit c) :=
  inferInstanceAs (Decidable (48 ≤ c.toNat ∧ c.toNat < 58))

/-- The number a run of digits stands for. -/
def digitsValue (ds : Bytes) : Nat := Nat.ofDigits 10 (ds.reverse.map fun c => c.toNat - 48)

/-- Read a run of digits. -/
def parseDigits (ds : Bytes) : Option Nat :=
  if ds.isEmpty || !(ds.all fun c => 48 ≤ c.toNat && c.toNat < 58) then none
  else some (digitsValue ds)

/-- Read an optional sign and a run of digits. -/
def parseDecimal : Bytes → Option Int
  | 45 :: ds => (parseDigits ds).map fun (n : Nat) => -(n : Int)
  | ds => (parseDigits ds).map fun (n : Nat) => (n : Int)

theorem digits_ne_nil (n : Nat) : digits n ≠ [] := by
  unfold digits
  split_ifs with hn
  · simp
  · simpa using Nat.digits_ne_nil_iff_ne_zero.mpr hn

/-- A number is written with digits only. -/
theorem isDigit_of_mem_digits {n : Nat} {c : UInt8} (h : c ∈ digits n) : IsDigit c := by
  unfold digits at h
  split_ifs at h with hn
  · obtain rfl : c = 48 := by simpa using h
    decide
  · obtain ⟨d, hd, rfl⟩ := List.mem_map.mp h
    have hlt : d < 10 := Nat.digits_lt_base (by omega) (List.mem_reverse.mp hd)
    have hval : (UInt8.ofNat (48 + d)).toNat = 48 + d := by
      rw [UInt8.toNat_ofNat']
      omega
    unfold IsDigit
    omega

/-- The digits of a number stand for it. -/
theorem digitsValue_digits (n : Nat) : digitsValue (digits n) = n := by
  unfold digits digitsValue
  split_ifs with hn
  · simp [hn]
  · have hmap : ((Nat.digits 10 n).map fun d => (UInt8.ofNat (48 + d)).toNat - 48) =
        Nat.digits 10 n := by
      conv_rhs => rw [← List.map_id (Nat.digits 10 n)]
      apply List.map_congr_left
      intro d hd
      have hlt : d < 10 := Nat.digits_lt_base (by omega) hd
      rw [UInt8.toNat_ofNat', id]
      omega
    rw [← List.map_reverse, List.reverse_reverse, List.map_map]
    show Nat.ofDigits 10 ((Nat.digits 10 n).map fun d => (UInt8.ofNat (48 + d)).toNat - 48) = n
    rw [hmap, Nat.ofDigits_digits]

/-- The first character of a number without sign is no sign. -/
theorem head_digits (n : Nat) : (digits n).head? ≠ some 45 := by
  intro h
  have hdigit := isDigit_of_mem_digits (List.mem_of_mem_head? h)
  exact absurd hdigit (by decide)

/-- A number without sign is read back. -/
theorem parseDigits_digits (n : Nat) : parseDigits (digits n) = some n := by
  have hall : (digits n).all (fun c => 48 ≤ c.toNat && c.toNat < 58) = true := by
    rw [List.all_eq_true]
    intro c hc
    simpa [IsDigit] using isDigit_of_mem_digits hc
  have hempty : (digits n).isEmpty = false := by simpa using digits_ne_nil n
  simp [parseDigits, hall, hempty, digitsValue_digits]

/-- **A number written is read back.** -/
theorem parseDecimal_decimal (x : Int) : parseDecimal (decimal x) = some x := by
  have hparse := parseDigits_digits x.natAbs
  unfold decimal
  split_ifs with hx
  · rw [parseDecimal, hparse, Option.map_some]
    congr 1
    omega
  · unfold parseDecimal
    split
    · rename_i ds heq
      exact absurd (by simp [heq]) (head_digits x.natAbs)
    · rw [hparse, Option.map_some]
      congr 1
      omega

/-- The characters of a number are digits or the sign. -/
theorem mem_decimal {x : Int} {c : UInt8} (h : c ∈ decimal x) : c = 45 ∨ IsDigit c := by
  unfold decimal at h
  split_ifs at h
  · rcases List.mem_cons.mp h with h | h
    · exact Or.inl h
    · exact Or.inr (isDigit_of_mem_digits h)
  · exact Or.inr (isDigit_of_mem_digits h)

end Nsdci.Lib
