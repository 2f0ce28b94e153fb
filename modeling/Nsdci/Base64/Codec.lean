import Nsdci.Base64

/-!
# What the codec does

`decodeLoop_encodeLoop` is the round trip of `Decode` and `Encode`, and `decodeLoop_eq_none_iff`
says which files `Decode` takes for invalid. `right_never` is about the commands: whatever the file
and the memory, more than its base64 text is written.
-/

namespace Nsdci.Base64

open Lib

/-! ## Lengths -/

theorem length_group (bs : Bytes) (hbs : bs ≠ []) : (group bs).length = 4 := by
  unfold group
  split
  · rfl
  · rfl
  · rfl
  · exact absurd rfl hbs

/-- What `Encode` appends to a line of whole groups. -/
theorem length_encodeLoop {n : Nat} (hn : n < 72) (hgroups : n % 4 = 0) (out bs : Bytes) :
    (encodeLoop n out bs).length = out.length + 4 * ((bs.length + 2) / 3) +
      2 * ((n + 4 * ((bs.length + 2) / 3)) / 72) := by
  fun_induction encodeLoop n out bs with
  | case1 n out =>
      show out.length = out.length + 4 * (2 / 3) + 2 * ((n + 4 * (2 / 3)) / 72)
      omega
  | case2 n out a hline | case4 n out a b hline =>
      rw [List.length_append, List.length_append, length_group _ (List.cons_ne_nil _ _)]
      simp only [List.length_cons, List.length_nil]
      omega
  | case3 n out a hline | case5 n out a b hline =>
      rw [List.length_append, length_group _ (List.cons_ne_nil _ _)]
      simp only [List.length_cons, List.length_nil]
      omega
  | case6 n out a b c rest hline ih =>
      rw [ih (by omega) rfl, List.length_append, List.length_append,
        length_group _ (List.cons_ne_nil _ _)]
      simp only [List.length_cons, List.length_nil]
      omega
  | case7 n out a b c rest hline ih =>
      rw [ih (by omega) (by omega), List.length_append, length_group _ (List.cons_ne_nil _ _)]
      simp only [List.length_cons]
      omega

theorem length_chars (bs : Bytes) : (chars bs).length = 4 * ((bs.length + 2) / 3) := by
  fun_induction chars bs with
  | case1 => rfl
  | case2 | case3 =>
      simp only [sextets, List.length_append, List.length_map, List.length_take,
        List.length_cons, List.length_nil]
      omega
  | case4 a b c rest ih =>
      rw [List.length_append, ih, List.length_map]
      simp only [sextets, List.length_cons, List.length_nil]
      omega

theorem length_wrap {n : Nat} (hn : n < 72) (cs : Bytes) :
    (wrap n cs).length = cs.length + 2 * ((n + cs.length) / 72) := by
  fun_induction wrap n cs with
  | case1 n =>
      show 0 = 0 + 2 * ((n + 0) / 72)
      omega
  | case2 n c cs hline ih =>
      rw [List.length_cons, List.length_cons, List.length_cons, ih (by omega), List.length_cons]
      omega
  | case3 n c cs hline ih =>
      rw [List.length_cons, ih (by omega), List.length_cons]
      omega

/-- An encoded file is longer than the base64 text of what was encoded. -/
theorem base64Encode_ne (junk : Nat → UInt8) (bs : Bytes) :
    base64Encode junk bs ≠ some (base64Text bs) := by
  intro h
  unfold base64Encode behind at h
  dsimp only at h
  have hrange := int32_range bs.length
  have hsize : int32 bs.length % 4294967296 = (bs.length : Int) % 4294967296 := Int.bmod_emod
  generalize int32 bs.length = size at h hrange hsize
  split_ifs at h with hneg hlong
  have hlen := congrArg List.length (Option.some.inj h)
  rw [List.length_append, List.length_map, List.length_range,
    length_encodeLoop (by norm_num) rfl, base64Text, length_wrap (by norm_num), length_chars,
    List.length_take, List.length_nil] at hlen
  -- the size is that of the file, or the file is longer than any size
  by_cases hsame : size.toNat = bs.length
  · rw [hsame, min_self] at hlen
    omega
  · have hle : size.toNat + 4294967296 ≤ bs.length := by omega
    rw [min_eq_left (by omega)] at hlen
    generalize bs.length = k at hlen hle
    have hone : 3 * ((k + 2) / 3) ≥ k := by omega
    omega

/-- **An encoded file never is the base64 text of its input.** -/
theorem right_never (signed : Bool) (junk : Nat → UInt8) (bs : Bytes) :
    ¬ Right signed junk bs :=
  fun h => base64Encode_ne junk bs h.encoded

/-- The letter `M` is encoded to `TW==`, behind four bytes of memory. -/
theorem letter_not_right : ¬ Right true (fun _ => 0) [77] := by
  intro h
  exact absurd h.encoded (by decide +kernel)

/-! ## Round trip -/

/-- The bits of three bytes, as numbers. -/
theorem digits3_eq (a b c : UInt8) :
    digits3 a.toNat b.toNat c.toNat =
      [a.toNat / 4, a.toNat % 4 * 16 + b.toNat / 16, b.toNat % 16 * 4 + c.toNat / 64,
        c.toNat % 64] := by
  have hshift (x i n : Nat) (hx : x / 2 ^ i < 2 ^ n) :
      (x >>> i) &&& (2 ^ n - 1) = x / 2 ^ i := by
    rw [Nat.shiftRight_eq_div_pow, Nat.and_two_pow_sub_one_eq_mod, Nat.mod_eq_of_lt hx]
  have hmask (x i n : Nat) : (x <<< i) &&& ((2 ^ n - 1) <<< i) = x % 2 ^ n * 2 ^ i := by
    rw [← Nat.shiftLeft_and_distrib, Nat.and_two_pow_sub_one_eq_mod, Nat.shiftLeft_eq]
  have ha := a.toNat_lt
  have hb := b.toNat_lt
  have hc := c.toNat_lt
  have ha₁ : (a.toNat >>> 2) &&& 0x3F = a.toNat / 4 := hshift _ 2 6 (by omega)
  have ha₂ : (a.toNat <<< 4) &&& 0x30 = a.toNat % 4 * 16 := hmask _ 4 2
  have hb₁ : (b.toNat >>> 4) &&& 0xf = b.toNat / 16 := hshift _ 4 4 (by omega)
  have hb₂ : (b.toNat <<< 2) &&& 0x3c = b.toNat % 16 * 4 := hmask _ 2 4
  have hc₁ : (c.toNat >>> 6) &&& 0x3 = c.toNat / 64 := hshift _ 6 2 (by omega)
  have hc₂ : c.toNat &&& 0x3F = c.toNat % 64 := Nat.and_two_pow_sub_one_eq_mod _ 6
  rw [digits3, ha₁, ha₂, hb₁, hb₂, hc₁, hc₂]

/-! ## Digits -/

theorem base64_eq : base64 = [65, 66, 67, 68, 69, 70, 71, 72, 73, 74, 75, 76, 77, 78, 79, 80, 81,
    82, 83, 84, 85, 86, 87, 88, 89, 90, 97, 98, 99, 100, 101, 102, 103, 104, 105, 106, 107, 108,
    109, 110, 111, 112, 113, 114, 115, 116, 117, 118, 119, 120, 121, 122, 48, 49, 50, 51, 52, 53,
    54, 55, 56, 57, 43, 47] := by
  decide +kernel

/-- The digit of the character of a digit. -/
theorem digitOf_digit : ∀ i : Fin 64, (digit i.val).toNat < 128 ∧
    digitOf (digit i.val).toNat = some i.val := by
  unfold digit
  rw [base64_eq]
  decide +kernel

/-- The character of the digit of a character. -/
theorem digit_digitOf : ∀ c : Fin 256, ∀ i ∈ digitOf c.val,
    i < 64 ∧ digit i = UInt8.ofNat c.val := by
  unfold digit
  rw [base64_eq]
  decide +kernel

/-- The characters that have a digit. -/
theorem digitOf_isSome_iff (c : UInt8) : (digitOf c.toNat).isSome ↔ c ∈ base64 := by
  have hlen : base64.length = 64 := by
    rw [base64_eq]
    rfl
  constructor
  · intro h
    obtain ⟨i, hi⟩ := Option.isSome_iff_exists.mp h
    obtain ⟨hlt, hdigit⟩ := digit_digitOf ⟨c.toNat, c.toNat_lt⟩ i hi
    rw [digit, List.getD_eq_getElem?_getD, List.getElem?_eq_getElem (hlen ▸ hlt),
      UInt8.ofNat_toNat] at hdigit
    exact hdigit ▸ List.getElem_mem _
  · intro h
    obtain ⟨i, hi, rfl⟩ := List.getElem_of_mem h
    have hdigit := (digitOf_digit ⟨i, hlen ▸ hi⟩).2
    rw [digit, List.getD_eq_getElem?_getD, List.getElem?_eq_getElem hi] at hdigit
    exact Option.isSome_of_eq_some hdigit

variable (signed : Bool) (nn b4 : Nat) (out : Bytes)

/-- A digit is read. -/
theorem decodeLoop_digit {i : Nat} (hi : i < 64) (rest : Bytes) :
    decodeLoop signed nn b4 out (digit i :: rest) =
      if nn + 1 = 4 then
        decodeLoop signed 0 (b4 * 64 + i) (out ++ [UInt8.ofNat ((b4 * 64 + i) / 65536),
          UInt8.ofNat ((b4 * 64 + i) / 256), UInt8.ofNat (b4 * 64 + i)]) rest
      else decodeLoop signed (nn + 1) (b4 * 64 + i) out rest := by
  obtain ⟨hlt, hdigit⟩ := digitOf_digit ⟨i, hi⟩
  dsimp only at hlt hdigit
  have hchar : nextChar signed (digit i) = (digit i).toNat := if_neg (by omega)
  rw [decodeLoop]
  dsimp only
  rw [hchar, if_neg (by omega), hdigit]

/-- The end of a line is passed over. -/
theorem decodeLoop_crlf (rest : Bytes) :
    decodeLoop signed nn b4 out (13 :: 10 :: rest) = decodeLoop signed nn b4 out rest := by
  cases signed <;> rfl

/-- Three bytes that are the last 24 bits of a number. -/
theorem ofNat_bytes {v : Nat} {a b c : UInt8}
    (hv : v % 16777216 = a.toNat * 65536 + b.toNat * 256 + c.toNat) :
    [UInt8.ofNat (v / 65536), UInt8.ofNat (v / 256), UInt8.ofNat v] = [a, b, c] := by
  have ha := a.toNat_lt
  have hb := b.toNat_lt
  have hc := c.toNat_lt
  have hone : UInt8.ofNat (v / 65536) = a := UInt8.toNat_inj.mp (by rw [UInt8.toNat_ofNat']; omega)
  have htwo : UInt8.ofNat (v / 256) = b := UInt8.toNat_inj.mp (by rw [UInt8.toNat_ofNat']; omega)
  have hthree : UInt8.ofNat v = c := UInt8.toNat_inj.mp (by rw [UInt8.toNat_ofNat']; omega)
  rw [hone, htwo, hthree]

/-- A group of three bytes is read. -/
theorem decodeLoop_group (a b c : UInt8) (rest : Bytes) :
    ∃ b4', decodeLoop signed 0 b4 out (group [a, b, c] ++ rest) =
      decodeLoop signed 0 b4' (out ++ [a, b, c]) rest := by
  have ha := a.toNat_lt
  have hb := b.toNat_lt
  have hc := c.toNat_lt
  refine ⟨(((b4 * 64 + a.toNat / 4) * 64 + (a.toNat % 4 * 16 + b.toNat / 16)) * 64 +
    (b.toNat % 16 * 4 + c.toNat / 64)) * 64 + c.toNat % 64, ?_⟩
  rw [group, digits3_eq]
  simp only [List.map_cons, List.map_nil, List.cons_append, List.nil_append]
  rw [decodeLoop_digit _ _ _ _ (by omega), if_neg (by omega), decodeLoop_digit _ _ _ _ (by omega),
    if_neg (by omega), decodeLoop_digit _ _ _ _ (by omega), if_neg (by omega),
    decodeLoop_digit _ _ _ _ (by omega), if_pos rfl, ofNat_bytes (a := a) (b := b) (c := c) ?_]
  omega

/-- What was appended before stays in front. -/
theorem encodeLoop_append (n : Nat) (front out bs : Bytes) :
    encodeLoop n (front ++ out) bs = front ++ encodeLoop n out bs := by
  fun_induction encodeLoop n out bs with
  | case1 n out => rfl
  | case2 n out a hline | case4 n out a b hline =>
      simp only [encodeLoop, if_pos hline, List.append_assoc]
  | case3 n out a hline | case5 n out a b hline =>
      simp only [encodeLoop, if_neg hline, List.append_assoc]
  | case6 n out a b c rest hline ih =>
      rw [encodeLoop, if_pos hline, List.append_assoc, List.append_assoc, ← ih, List.append_assoc]
  | case7 n out a b c rest hline ih =>
      rw [encodeLoop, if_neg hline, List.append_assoc, ih]

/-- The padding ends a file. -/
theorem decodeLoop_pad (rest : Bytes) :
    decodeLoop signed nn b4 out (61 :: rest) =
      if nn = 3 then
        some (out ++ [UInt8.ofNat (b4 * 64 / 65536), UInt8.ofNat (b4 * 64 / 256)])
      else if nn = 2 then some (out ++ [UInt8.ofNat (b4 * 4096 / 65536)])
      else some out := by
  cases signed <;> rfl

/-- A last group of one byte is read, whatever is behind it. -/
theorem decodeLoop_group_one (a : UInt8) (rest : Bytes) :
    decodeLoop signed 0 b4 out (group [a] ++ rest) = some (out ++ [a]) := by
  have ha := a.toNat_lt
  have hdigits := digits3_eq a 255 255
  rw [show (255 : UInt8).toNat = 255 from rfl] at hdigits
  rw [group, hdigits]
  simp only [List.take_succ_cons, List.take_zero, List.map_cons, List.map_nil, List.cons_append,
    List.nil_append]
  rw [decodeLoop_digit _ _ _ _ (by omega), if_neg (by omega), decodeLoop_digit _ _ _ _ (by omega),
    if_neg (by omega), decodeLoop_pad, if_neg (by omega), if_pos rfl]
  -- the bits behind the byte are those of the missing ones
  have hbytes := ofNat_bytes (v := ((b4 * 64 + a.toNat / 4) * 64 +
    (a.toNat % 4 * 16 + 255 / 16)) * 4096) (a := a) (b := 240) (c := 0)
    (by rw [show (240 : UInt8).toNat = 240 from rfl, show (0 : UInt8).toNat = 0 from rfl]; omega)
  rw [(List.cons.inj hbytes).1]

/-- A last group of two bytes is read, whatever is behind it. -/
theorem decodeLoop_group_two (a b : UInt8) (rest : Bytes) :
    decodeLoop signed 0 b4 out (group [a, b] ++ rest) = some (out ++ [a, b]) := by
  have ha := a.toNat_lt
  have hb := b.toNat_lt
  have hdigits := digits3_eq a b 255
  rw [show (255 : UInt8).toNat = 255 from rfl] at hdigits
  rw [group, hdigits]
  simp only [List.take_succ_cons, List.take_zero, List.map_cons, List.map_nil, List.cons_append,
    List.nil_append]
  rw [decodeLoop_digit _ _ _ _ (by omega), if_neg (by omega), decodeLoop_digit _ _ _ _ (by omega),
    if_neg (by omega), decodeLoop_digit _ _ _ _ (by omega), if_neg (by omega), decodeLoop_pad,
    if_pos rfl]
  have hbytes := ofNat_bytes (v := (((b4 * 64 + a.toNat / 4) * 64 +
    (a.toNat % 4 * 16 + b.toNat / 16)) * 64 + (b.toNat % 16 * 4 + 255 / 64)) * 64)
    (a := a) (b := b) (c := 192)
    (by rw [show (192 : UInt8).toNat = 192 from rfl]; omega)
  obtain ⟨hone, htwo⟩ := List.cons.inj hbytes
  rw [hone, (List.cons.inj htwo).1]

/-- **`Decode` gives back what `Encode` appended**, in every place of a line. -/
theorem decodeLoop_encodeLoop (n : Nat) (bs : Bytes) :
    decodeLoop signed 0 b4 out (encodeLoop n [] bs) = some (out ++ bs) := by
  induction bs using chars.induct generalizing n b4 out with
  | case1 => exact congrArg some (List.append_nil out).symm
  | case2 a =>
      rw [encodeLoop]
      split
      · rw [List.nil_append, decodeLoop_group_one]
      · rw [List.nil_append, ← List.append_nil (group [a]), decodeLoop_group_one]
  | case3 a b =>
      rw [encodeLoop]
      split
      · rw [List.nil_append, decodeLoop_group_two]
      · rw [List.nil_append, ← List.append_nil (group [a, b]), decodeLoop_group_two]
  | case4 a b c rest ih =>
      rw [encodeLoop]
      split
      · rw [← List.append_nil ([] ++ group [a, b, c] ++ [13, 10]), encodeLoop_append,
          List.nil_append, List.append_assoc]
        obtain ⟨b4', hgroup⟩ :=
          decodeLoop_group signed b4 out a b c ([13, 10] ++ encodeLoop 0 [] rest)
        rw [hgroup]
        show decodeLoop signed 0 b4' (out ++ [a, b, c]) (13 :: 10 :: encodeLoop 0 [] rest) = _
        rw [decodeLoop_crlf, ih, List.append_assoc]
        rfl
      · rw [← List.append_nil ([] ++ group [a, b, c]), encodeLoop_append, List.nil_append]
        obtain ⟨b4', hgroup⟩ := decodeLoop_group signed b4 out a b c (encodeLoop (n + 4) [] rest)
        rw [hgroup, ih, List.append_assoc]
        rfl

/-! ## Invalid files -/

/-- What `NextChar` and the digits make of a byte. -/
theorem byte_kinds (signed : Bool) (c : UInt8) :
    (nextChar signed c = -1 ↔ signed = true ∧ c = 255) ∧
      ((digitOf (nextChar signed c)).isSome ↔ c ∈ base64) ∧
      (nextChar signed c = 13 ↔ c = 13) ∧ (nextChar signed c = 10 ↔ c = 10) ∧
      (nextChar signed c = 61 ↔ c = 61) := by
  have hnat (b : UInt8) : c = b ↔ c.toNat = b.toNat := UInt8.toNat_inj.symm
  have hlt := c.toNat_lt
  rw [← digitOf_isSome_iff, hnat 255, hnat 13, hnat 10, hnat 61]
  simp only [UInt8.reduceToNat]
  rw [nextChar]
  by_cases h : signed = true ∧ 128 ≤ c.toNat
  · -- a negative `char` is no digit, and neither is the byte
    have hnone (x : Int) (hx : x < 0 ∨ 128 ≤ x) : digitOf x = none := by
      unfold digitOf
      rw [if_neg (by omega), if_neg (by omega), if_neg (by omega), if_neg (by omega),
        if_neg (by omega)]
    rw [if_pos h, hnone (c.toNat - 256) (by omega), hnone c.toNat (by omega), and_iff_right h.1]
    exact ⟨by omega, Iff.rfl, by omega, by omega, by omega⟩
  · have hlast : ¬ (signed = true ∧ c.toNat = 255) := fun hc => h ⟨hc.1, by omega⟩
    rw [if_neg h]
    exact ⟨iff_of_false (by omega) hlast, Iff.rfl, by omega, by omega, by omega⟩

/-- The first byte that is neither a digit nor in the end of a line does not end decoding. -/
def Rejected (signed : Bool) (file : Bytes) : Prop :=
  ∃ front c rest, file = front ++ c :: rest ∧ (∀ x ∈ front, x ∈ base64 ∨ x = 13 ∨ x = 10) ∧
    c ∉ base64 ∧ c ≠ 13 ∧ c ≠ 10 ∧ c ≠ 61 ∧ ¬ (signed = true ∧ c = 255)

theorem rejected_cons_pass {x : UInt8} (hx : x ∈ base64 ∨ x = 13 ∨ x = 10) (file : Bytes) :
    Rejected signed (x :: file) ↔ Rejected signed file := by
  constructor
  · rintro ⟨front, c, rest, hfile, hfront, hc, hcr, hlf, hlast⟩
    cases front with
    | nil =>
        obtain ⟨rfl, -⟩ := List.cons.inj hfile
        rcases hx with hx | hx | hx
        · exact absurd hx hc
        · exact absurd hx hcr
        · exact absurd hx hlf
    | cons y front =>
        exact ⟨front, c, rest, (List.cons.inj hfile).2,
          fun z hz => hfront z (List.mem_cons_of_mem y hz), hc, hcr, hlf, hlast⟩
  · rintro ⟨front, c, rest, rfl, hfront, hlast⟩
    exact ⟨x :: front, c, rest, rfl, List.forall_mem_cons.mpr ⟨hx, hfront⟩, hlast⟩

theorem rejected_cons_stop {x : UInt8} (hx : x ∉ base64) (hcr : x ≠ 13) (hlf : x ≠ 10)
    (file : Bytes) :
    Rejected signed (x :: file) ↔ x ≠ 61 ∧ ¬ (signed = true ∧ x = 255) := by
  constructor
  · rintro ⟨front, c, rest, hfile, hfront, -, -, -, hlast⟩
    cases front with
    | nil =>
        obtain ⟨rfl, -⟩ := List.cons.inj hfile
        exact hlast
    | cons y front =>
        obtain ⟨rfl, -⟩ := List.cons.inj hfile
        rcases hfront x List.mem_cons_self with hmem | hmem | hmem
        · exact absurd hmem hx
        · exact absurd hmem hcr
        · exact absurd hmem hlf
  · intro hlast
    exact ⟨[], x, file, rfl, fun z hz => absurd hz List.not_mem_nil, hx, hcr, hlf, hlast⟩

/-- **The files that `Decode` takes for invalid.** -/
theorem decodeLoop_eq_none_iff (file : Bytes) :
    decodeLoop signed nn b4 out file = none ↔ Rejected signed file := by
  induction file generalizing nn b4 out with
  | nil =>
      refine ⟨fun h => absurd h (Option.some_ne_none out), ?_⟩
      rintro ⟨front, c, rest, hfile, -⟩
      cases front <;> cases hfile
  | cons x file ih =>
      obtain ⟨hend, hdigit, hcr, hlf, hpad⟩ := byte_kinds signed x
      by_cases hx : x ∈ base64
      · have hne : nextChar signed x ≠ -1 := by
          intro h
          rw [(hend.mp h).2] at hx
          exact absurd hx (by decide)
        obtain ⟨i, hi⟩ := Option.isSome_iff_exists.mp (hdigit.mpr hx)
        rw [decodeLoop, rejected_cons_pass signed (Or.inl hx)]
        dsimp only
        rw [if_neg hne, hi]
        dsimp only
        split
        · exact ih 0 _ _
        · exact ih _ _ _
      · have hnone : digitOf (nextChar signed x) = none :=
          Option.not_isSome_iff_eq_none.mp fun h => hx (hdigit.mp h)
        by_cases hline : x = 13 ∨ x = 10
        · have hne : nextChar signed x ≠ -1 := by
            intro h
            rw [(hend.mp h).2] at hline
            exact absurd hline (by decide)
          rw [decodeLoop, rejected_cons_pass signed (Or.inr hline)]
          dsimp only
          rw [if_neg hne, hnone]
          dsimp only
          rw [if_pos (by rw [hcr, hlf]; exact hline)]
          exact ih _ _ _
        · rw [not_or] at hline
          rw [rejected_cons_stop signed hx hline.1 hline.2, decodeLoop]
          dsimp only
          rw [hnone]
          dsimp only
          rw [if_neg (c := nextChar signed x = 13 ∨ nextChar signed x = 10)
            (by rw [hcr, hlf, not_or]; exact hline)]
          by_cases hstop : signed = true ∧ x = 255
          · rw [if_pos (hend.mpr hstop)]
            exact ⟨fun h => (nomatch h), fun h => absurd hstop h.2⟩
          · rw [if_neg (mt hend.mp hstop)]
            by_cases heq : x = 61
            · rw [if_pos (hpad.mpr heq)]
              refine ⟨fun h => ?_, fun h => absurd heq h.1⟩
              split_ifs at h
            · rw [if_neg (mt hpad.mp heq)]
              exact ⟨fun _ => ⟨heq, hstop⟩, fun _ => rfl⟩

end Nsdci.Base64
