import Nsdci.Lib.Memory
import Mathlib.Tactic.NormNum
import Mathlib.Tactic.Ring

/-!
# 32-bit and 16-bit words

`int32` is the value an integer takes when it is stored in a 32-bit two's complement `int`.
`be32` writes the low 32 bits of an integer in network byte order and `ofBe32` reads four such
bytes back as an unsigned number. `int16`, `be16` and `ofBe16` are the same for 16 bits.
-/

namespace Nsdci.Lib

/-- Division towards zero, by the other division. -/
theorem tdiv_eq_ite (x y : Int) : x.tdiv y = if 0 ≤ x then x / y else -(-x / y) := by
  split_ifs with hx
  · exact Int.tdiv_eq_ediv_of_nonneg hx
  · rw [← Int.tdiv_eq_ediv_of_nonneg (by omega), Int.neg_tdiv, Int.neg_neg]

/-- The value of `x` stored in a 32-bit `int`. -/
def int32 (x : Int) : Int := x.bmod 4294967296

/-- A number in the range of `int` is stored unchanged. -/
theorem int32_of_range {x : Int} (hlo : -(2 ^ 31) ≤ x) (hhi : x < 2 ^ 31) : int32 x = x :=
  Int.bmod_eq_of_le_mul_two (by omega) (by omega)

theorem int32_range (x : Int) : -(2 ^ 31) ≤ int32 x ∧ int32 x < 2 ^ 31 := by
  have hlo := Int.le_bmod (x := x) (m := 4294967296) (by norm_num)
  have hhi := Int.bmod_lt (x := x) (m := 4294967296) (by norm_num)
  unfold int32
  omega

/-- A positive number is stored unchanged exactly when it fits. -/
theorem int32_natCast_eq_iff {n : Nat} : int32 n = n ↔ n < 2 ^ 31 := by
  constructor
  · intro h
    have := (int32_range n).2
    omega
  · intro h
    exact int32_of_range (by omega) (by omega)

/-- A word from 2 ^ 31 on is negative as an `int`. -/
theorem int32_natCast_of_ge {n : Nat} (hlo : 2 ^ 31 ≤ n) (hhi : n < 2 ^ 32) :
    int32 n = n - 2 ^ 32 := by
  have hmod : int32 n % 4294967296 = (n : Int) % 4294967296 := Int.bmod_emod
  have hrange := int32_range n
  omega

/-- Storing the minuend first does not change a stored difference. -/
@[simp] theorem int32_int32_sub (x y : Int) : int32 (int32 x - y) = int32 (x - y) :=
  Int.bmod_sub_bmod

@[simp] theorem int32_int32_add (x y : Int) : int32 (int32 x + y) = int32 (x + y) :=
  Int.bmod_add_bmod

@[simp] theorem int32_add_int32 (x y : Int) : int32 (x + int32 y) = int32 (x + y) :=
  Int.add_bmod_bmod

@[simp] theorem int32_zero : int32 0 = 0 := rfl

theorem int32_eq_zero_iff {x : Int} : int32 x = 0 ↔ (4294967296 : Int) ∣ x :=
  (Int.dvd_iff_bmod_eq_zero (a := 4294967296)).symm

/-- Whole turns are not stored. -/
theorem int32_add_mul (x k : Int) : int32 (x + k * 4294967296) = int32 x :=
  Int.add_mul_bmod_self_right x k 4294967296

/-- Taking a part away from a stored sum leaves the rest, stored. -/
theorem int32_sub_part {whole part rest : Nat} (h : whole = part + rest) :
    int32 (int32 whole - part) = int32 rest := by
  have hrest : (whole : Int) - part = rest := by
    rw [h]
    push_cast
    ring
  rw [int32_int32_sub, hrest]

/-- Putting another part in place of one in a stored sum. -/
theorem int32_replace_part {whole part rest : Nat} (h : whole = part + rest) (other : Nat) :
    int32 (int32 whole - part + other) = int32 (other + rest : Nat) := by
  have hsub : int32 whole - part + other = int32 whole - (part - other : Int) := by ring
  have hsum : (whole : Int) - (part - other) = (other + rest : Nat) := by
    rw [h]
    push_cast
    ring
  rw [hsub, int32_int32_sub, hsum]

/-- Sums of numbers stored alike are stored alike. -/
theorem int32_add_congr {x x' y y' : Int} (hx : int32 x = int32 x') (hy : int32 y = int32 y') :
    int32 (x + y) = int32 (x' + y') := by
  rw [← int32_int32_add, hx, ← int32_add_int32, hy, int32_add_int32, int32_int32_add]

/-- The low 32 bits of `x` in network byte order (`htonl`). -/
def be32 (x : Int) : Bytes :=
  let u := (x % 4294967296).toNat
  [UInt8.ofNat (u / 16777216), UInt8.ofNat (u / 65536), UInt8.ofNat (u / 256), UInt8.ofNat u]

/-- A number has the low 32 bits of the `int` it is stored in. -/
theorem be32_int32 (x : Int) : be32 (int32 x) = be32 x := by
  have hmod : int32 x % 4294967296 = x % 4294967296 := Int.bmod_emod
  unfold be32
  rw [hmod]

/-- The unsigned number that four bytes in network byte order stand for (`ntohl`). -/
def ofBe32 : Bytes → Nat
  | [a, b, c, d] => a.toNat * 16777216 + b.toNat * 65536 + c.toNat * 256 + d.toNat
  | _ => 0

@[simp] theorem length_be32 (x : Int) : (be32 x).length = 4 := rfl

/-- `ntohl` undoes `htonl`, up to the unsigned reading of the word. -/
theorem ofBe32_be32 (x : Int) : ofBe32 (be32 x) = (x % 4294967296).toNat := by
  have h : (x % 4294967296).toNat < 4294967296 := by omega
  simp only [be32, ofBe32, UInt8.toNat_ofNat']
  omega

/-- A length that fits an `int` survives the network byte order. -/
theorem ofBe32_be32_natCast {n : Nat} (h : n < 2 ^ 32) : ofBe32 (be32 n) = n := by
  rw [ofBe32_be32]
  omega

/-- An `int` survives the network byte order when it is read back into an `int`. -/
theorem int32_ofBe32_be32 (x : Int) : int32 (ofBe32 (be32 x)) = int32 x := by
  have hcast : ((ofBe32 (be32 x) : Nat) : Int) = x % 4294967296 := by
    rw [ofBe32_be32]
    exact Int.toNat_of_nonneg (Int.emod_nonneg _ (by norm_num))
  rw [hcast]
  exact Int.emod_bmod x 4294967296

/-- Four bytes are a word. -/
theorem ofBe32_lt (bs : Bytes) : ofBe32 bs < 4294967296 := by
  unfold ofBe32
  split
  next a b c d =>
    have ha := a.toNat_lt
    have hb := b.toNat_lt
    have hc := c.toNat_lt
    have hd := d.toNat_lt
    omega
  next => exact Nat.zero_lt_succ _

/-- What is above a word is not written. -/
theorem be32_mul_add (m n : Nat) : be32 (m * 4294967296 + n : Nat) = be32 n := by
  have hmod : ((m * 4294967296 + n : Nat) : Int) % 4294967296 = n % 4294967296 := by
    omega
  unfold be32
  rw [hmod]

/-- Four bytes are those of the word they stand for. -/
theorem be32_ofBe32 {bs : Bytes} (h : bs.length = 4) : be32 (ofBe32 bs) = bs := by
  match bs, h with
  | [a, b, c, d], _ =>
      have ha := a.toNat_lt
      have hb := b.toNat_lt
      have hc := c.toNat_lt
      have hd := d.toNat_lt
      have hvalue : ofBe32 [a, b, c, d] =
          a.toNat * 16777216 + b.toNat * 65536 + c.toNat * 256 + d.toNat := rfl
      have hword : ((ofBe32 [a, b, c, d] : Nat) % 4294967296 : Int).toNat =
          a.toNat * 16777216 + b.toNat * 65536 + c.toNat * 256 + d.toNat := by
        rw [hvalue]
        omega
      unfold be32
      rw [hword]
      simp only [← UInt8.toNat_inj, UInt8.toNat_ofNat', List.cons.injEq, and_true]
      omega

/-! ## 16 bits -/

/-- The value of `x` stored in an `int16_t`. -/
def int16 (x : Int) : Int := x.bmod 65536

theorem int16_range (x : Int) : -(2 ^ 15) ≤ int16 x ∧ int16 x < 2 ^ 15 := by
  have hlo := Int.le_bmod (x := x) (m := 65536) (by norm_num)
  have hhi := Int.bmod_lt (x := x) (m := 65536) (by norm_num)
  unfold int16
  omega

/-- A number is stored unchanged exactly when it fits. -/
theorem int16_eq_iff {x : Int} : int16 x = x ↔ -(2 ^ 15) ≤ x ∧ x < 2 ^ 15 := by
  constructor
  · intro h
    exact h ▸ int16_range x
  · intro ⟨hlo, hhi⟩
    exact Int.bmod_eq_of_le_mul_two (by omega) (by omega)

/-- The low 16 bits of `x` in network byte order (`htons`). -/
def be16 (x : Int) : Bytes :=
  let u := (x % 65536).toNat
  [UInt8.ofNat (u / 256), UInt8.ofNat u]

/-- The unsigned number that two bytes in network byte order stand for (`ntohs`). -/
def ofBe16 : Bytes → Nat
  | [a, b] => a.toNat * 256 + b.toNat
  | _ => 0

/-- The low 16 bits survive the network byte order. -/
theorem ofBe16_be16 (x : Int) : ((ofBe16 (be16 x) : Nat) : Int) = x % 65536 := by
  have hlt : (x % 65536).toNat < 65536 := by omega
  simp only [be16, ofBe16, UInt8.toNat_ofNat']
  omega

/-- An `int16_t` survives the network byte order. -/
theorem int16_ofBe16_be16 (x : Int) : int16 (ofBe16 (be16 x)) = int16 x := by
  rw [ofBe16_be16]
  exact Int.emod_bmod x 65536

/-- Two bytes are those of the number they stand for. -/
theorem be16_ofBe16 {bs : Bytes} (h : bs.length = 2) : be16 (ofBe16 bs) = bs := by
  match bs, h with
  | [a, b], _ =>
      have ha := a.toNat_lt
      have hb := b.toNat_lt
      have hvalue : ofBe16 [a, b] = a.toNat * 256 + b.toNat := rfl
      have hword : ((ofBe16 [a, b] : Nat) % 65536 : Int).toNat = a.toNat * 256 + b.toNat := by
        rw [hvalue]
        omega
      unfold be16
      rw [hword]
      simp only [← UInt8.toNat_inj, UInt8.toNat_ofNat', List.cons.injEq, and_true]
      omega

/-- Two bytes are less than `2 ^ 16`. -/
theorem ofBe16_lt (bs : Bytes) : ofBe16 bs < 65536 := by
  unfold ofBe16
  split
  · next a b =>
      have ha := a.toNat_lt
      have hb := b.toNat_lt
      omega
  · exact Nat.zero_lt_succ _

/-- Four bytes are those of the `int` they stand for. -/
theorem be32_int32_ofBe32 {bs : Bytes} (h : bs.length = 4) : be32 (int32 (ofBe32 bs)) = bs := by
  rw [be32_int32, be32_ofBe32 h]

theorem ofBe16_inj {bs bs' : Bytes} (h : bs.length = 2) (h' : bs'.length = 2)
    (heq : ofBe16 bs = ofBe16 bs') : bs = bs' := by
  rw [← be16_ofBe16 h, heq, be16_ofBe16 h']

theorem int32_ofBe32_inj {bs bs' : Bytes} (h : bs.length = 4) (h' : bs'.length = 4)
    (heq : int32 (ofBe32 bs) = int32 (ofBe32 bs')) : bs = bs' := by
  rw [← be32_int32_ofBe32 h, heq, be32_int32_ofBe32 h']

/-- Bytes put together with `<<` and `|`. -/
theorem shift_or_byte (n : Nat) (b : UInt8) : n <<< 8 ||| b.toNat = n * 256 + b.toNat := by
  rw [← Nat.shiftLeft_add_eq_or_of_lt b.toNat_lt, Nat.shiftLeft_eq]

theorem shift_or_ofBe16 (a b : UInt8) : a.toNat <<< 8 ||| b.toNat = ofBe16 [a, b] :=
  shift_or_byte _ _

theorem shift_or_ofBe32 (a b c d : UInt8) :
    a.toNat <<< 24 ||| b.toNat <<< 16 ||| c.toNat <<< 8 ||| d.toNat = ofBe32 [a, b, c, d] := by
  have hsplit : a.toNat <<< 24 ||| b.toNat <<< 16 ||| c.toNat <<< 8 =
      ((a.toNat <<< 8 ||| b.toNat) <<< 8 ||| c.toNat) <<< 8 := by
    rw [Nat.shiftLeft_or_distrib, Nat.shiftLeft_or_distrib, Nat.shiftLeft_or_distrib,
      ← Nat.shiftLeft_add, ← Nat.shiftLeft_add, ← Nat.shiftLeft_add]
  rw [hsplit, shift_or_byte, shift_or_byte, shift_or_byte]
  show _ = a.toNat * 16777216 + b.toNat * 65536 + c.toNat * 256 + d.toNat
  omega

end Nsdci.Lib
