import Nsdci.Ascii85
import Nsdci.Lib.Word
import Mathlib.Tactic.IntervalCases

/-!
# Encoding and decoding (`ascii85.c`)

`Encode` collects four bytes in an `unsigned long` and writes its digits, most significant first,
with line breaks. Both functions write into a file as it is: what was in it beyond their own output
stays there.

`roundTrip_iff` says when `Decode` brings back the bytes that `Encode` has read. A byte from 128 on
at the beginning of a group is negative when it has been shifted, and an `unsigned long` of 64 bits
has that sign in its upper half.
-/

namespace Nsdci.Ascii85

open Lib
open StateTransition (Reaches eval mem_eval)

/-! ## The encoder -/

/-- Where the line is, and what is written. -/
structure Encoder where
  pos : Nat
  output : Bytes

/-- A character, and a line break where the line is full. -/
def put (width : Int) (e : Encoder) (c : UInt8) : Encoder :=
  if e.pos ≥ width then ⟨0, e.output ++ [c, 10]⟩ else ⟨e.pos + 1, e.output ++ [c]⟩

/-- `buf` of `EncodeChar`: digits, least significant first. -/
def buf : Nat → Nat → List Nat
  | 0, _ => []
  | i + 1, tuple => tuple % 85 :: buf i (tuple / 85)

/-- `EncodeChar`. -/
def encodeChar (width : Int) (e : Encoder) (tuple count : Nat) : Encoder :=
  ((buf 5 tuple).reverse.take (count + 1)).foldl (fun e x => put width e (UInt8.ofNat (x + 33))) e

/-- `c << n`, an `int`, as an `unsigned long`. -/
def shifted (size : Long) (c : UInt8) (n : Nat) : Nat :=
  (int32 (c.toNat * 2 ^ n) % size.modulus).toNat

/-- The `while` loop of `Encode`, and the last group. -/
def encodeLoop (size : Long) (width : Int) : Nat → Nat → Encoder → Bytes → Encoder
  | count, tuple, e, [] => if count > 0 then encodeChar width e tuple count else e
  | 0, tuple, e, c :: input => encodeLoop size width 1 (tuple ||| shifted size c 24) e input
  | 1, tuple, e, c :: input => encodeLoop size width 2 (tuple ||| shifted size c 16) e input
  | 2, tuple, e, c :: input => encodeLoop size width 3 (tuple ||| shifted size c 8) e input
  | _, tuple, e, c :: input =>
      encodeLoop size width 0 0 (if tuple ||| c.toNat = 0 then put width e 122
        else encodeChar width e (tuple ||| c.toNat) 4) input

/-- `Encode`. -/
def encode (size : Long) (width : Int) (input : Bytes) : Bytes :=
  let e := encodeLoop size width 0 0 ⟨0, []⟩ input
  e.output ++ (if e.pos + 2 > width then [10] else []) ++ [126, 62, 10]

/-- A file into which something is written from the beginning, and which is not truncated. -/
def overwrite (old output : Bytes) : Bytes := output ++ old.drop output.length

/-- `Decode` brings the bytes back from what `Encode` has written. -/
def RoundTrip (size : Long) (width : Int) (bytes oldEncoded oldDecoded : Bytes) : Prop :=
  ∃ d ∈ eval (next size) (start (overwrite oldEncoded (encode size width bytes))),
    d.control = .returned true ∧ overwrite oldDecoded d.output = bytes

/-! ## Reading what is written -/

/-- Reading some characters. -/
def Reads (size : Long) (s : Bytes) (d d' : Decoder) : Prop :=
  ∀ rest, Reaches (next size) { d with control := .read, input := s ++ rest }
    { d' with control := .read, input := rest }

theorem Reads.append {size : Long} {s t : Bytes} {d d' d'' : Decoder} (hs : Reads size s d d')
    (ht : Reads size t d' d'') : Reads size (s ++ t) d d'' := by
  intro rest
  rw [List.append_assoc]
  exact (hs (t ++ rest)).trans (ht rest)

/-- A digit. -/
def digit (size : Long) (d : Decoder) (x : Nat) : Decoder :=
  let tuple := (d.tuple + x * pow85 d.count) % size.modulus
  if d.count + 1 = 5 then { d with count := 0, tuple := 0, output := d.output ++ wput tuple 4 }
  else { d with count := d.count + 1, tuple }

theorem reads_digit (size : Long) (d : Decoder) {x : Nat} (hx : x < 85) :
    Reads size [UInt8.ofNat (x + 33)] d (digit size d x) := by
  have hval : (UInt8.ofNat (x + 33)).toNat = x + 33 := by
    rw [UInt8.toNat_ofNat']
    omega
  have hdigit : IsDigit85 (UInt8.ofNat (x + 33)) := by
    rw [IsDigit85, UInt8.le_iff_toNat_le, UInt8.le_iff_toNat_le, hval]
    exact ⟨Nat.le_add_left 33 x, show x + 33 ≤ 117 by omega⟩
  intro rest
  refine .single ?_
  show some (onChar size _ _ rest) = _
  rw [onChar, if_pos hdigit, hval, Nat.add_sub_cancel, digit]
  split_ifs <;> rfl

theorem reads_newline (size : Long) (d : Decoder) : Reads size [10] d d :=
  fun _ => .single rfl

theorem reads_z (size : Long) {d : Decoder} (h : d.count = 0) :
    Reads size [122] d { d with output := d.output ++ [0, 0, 0, 0] } := by
  intro rest
  refine .single ?_
  show some (onChar size _ _ rest) = _
  rw [onChar, if_neg (by decide), if_pos rfl, if_neg (not_not.mpr h)]

/-- What the encoder writes, the decoder reads. -/
def Writes (size : Long) (e e' : Encoder) (d d' : Decoder) : Prop :=
  ∃ s, e'.output = e.output ++ s ∧ Reads size s d d'

theorem Writes.trans {size : Long} {e e' e'' : Encoder} {d d' d'' : Decoder}
    (h : Writes size e e' d d') (h' : Writes size e' e'' d' d'') : Writes size e e'' d d'' := by
  obtain ⟨s, hs, hreads⟩ := h
  obtain ⟨t, ht, hreads'⟩ := h'
  exact ⟨s ++ t, by rw [ht, hs, List.append_assoc], hreads.append hreads'⟩

/-- Line breaks are not read. -/
theorem writes_put {size : Long} (width : Int) (e : Encoder) {c : UInt8} {d d' : Decoder}
    (h : Reads size [c] d d') : Writes size e (put width e c) d d' := by
  unfold put
  split_ifs
  · exact ⟨[c, 10], rfl, h.append (reads_newline size d')⟩
  · exact ⟨[c], rfl, h⟩

theorem writes_digits {size : Long} (width : Int) (e : Encoder) (d : Decoder) {xs : List Nat}
    (h : ∀ x ∈ xs, x < 85) :
    Writes size e (xs.foldl (fun e x => put width e (UInt8.ofNat (x + 33))) e) d
      (xs.foldl (digit size) d) := by
  induction xs generalizing e d with
  | nil => exact ⟨[], (List.append_nil _).symm, fun rest => .refl⟩
  | cons x xs ih =>
      obtain ⟨hx, hxs⟩ := List.forall_mem_cons.mp h
      exact (writes_put width e (reads_digit size d hx)).trans (ih _ _ hxs)

/-! ## Groups -/

/-- What the sign of the first byte of a group adds. -/
def signBits (size : Long) (c : UInt8) : Nat :=
  if size = .bits64 ∧ 128 ≤ c then 2 ^ 64 - 2 ^ 32 else 0

/-- The number that a group of bytes stands for. -/
def value : Nat → Bytes → Nat
  | _, [] => 0
  | n, c :: group => c.toNat * 2 ^ (8 * n) + value (n - 1) group

/-- `tuple` when a group is complete. -/
def tupleOf (size : Long) (group : Bytes) : Nat := signBits size (group.headD 0) + value 3 group

/-- The number that the decoder has in the end. -/
def decodedTuple (size : Long) (group : Bytes) : Nat :=
  let tuple := tupleOf size group % 85 ^ 5
  if group.length = 4 then tuple
  else tuple - tuple % 85 ^ (4 - group.length) + 85 ^ (4 - group.length)

/-- What the decoder writes for a group. -/
def decoded (size : Long) (group : Bytes) : Bytes :=
  wput (decodedTuple size group % size.modulus) group.length

/-- A group has up to four bytes. -/
def Group (group : Bytes) : Prop := group ≠ [] ∧ group.length ≤ 4

theorem length_decoded (size : Long) {group : Bytes} (h : Group group) :
    (decoded size group).length = group.length := by
  rw [decoded, wput, List.length_map, List.length_take]
  exact Nat.min_eq_left h.2

/-- The number of a group, with all bits that the bytes behind it might have. -/
theorem value_add_le {n : Nat} {group : Bytes} (h : group.length ≤ n + 1) :
    value n group + 2 ^ (8 * (n + 1 - group.length)) ≤ 2 ^ (8 * (n + 1)) := by
  induction group generalizing n with
  | nil => exact (Nat.zero_add _).le
  | cons c group ih =>
      have hc : c.toNat < 256 := c.toNat_lt
      cases n with
      | zero =>
          obtain rfl : group = [] := List.length_eq_zero_iff.mp (by simpa using h)
          show c.toNat * 1 + 0 + 1 ≤ 256
          omega
      | succ n =>
          have hrest := ih (Nat.le_of_succ_le_succ h)
          rw [List.length_cons, Nat.add_sub_add_right, value, Nat.add_sub_cancel]
          calc c.toNat * 2 ^ (8 * (n + 1)) + value n group + 2 ^ (8 * (n + 1 - group.length))
              ≤ c.toNat * 2 ^ (8 * (n + 1)) + 2 ^ (8 * (n + 1)) := by omega
            _ = (c.toNat + 1) * 2 ^ (8 * (n + 1)) := by ring
            _ ≤ 2 ^ 8 * 2 ^ (8 * (n + 1)) := Nat.mul_le_mul_right _ hc
            _ = 2 ^ (8 * (n + 1 + 1)) := by rw [← Nat.pow_add]; ring_nf

/-- The bytes of a number that is not too far from that of the group. -/
theorem wput_value {group : Bytes} (h : Group group) {v : Nat} (hlo : value 3 group ≤ v)
    (hhi : v < value 3 group + 2 ^ (8 * (4 - group.length))) : wput v group.length = group := by
  have hbyte (c : UInt8) (n : Nat) (hn : n % 256 = c.toNat) : UInt8.ofNat n = c :=
    UInt8.toNat_inj.mp ((UInt8.toNat_ofNat' ..).trans hn)
  have hlt (c : UInt8) : c.toNat < 256 := c.toNat_lt
  obtain ⟨hne, hlen⟩ := h
  rcases group with _ | ⟨a, _ | ⟨b, _ | ⟨c, _ | ⟨d, _ | ⟨e, group⟩⟩⟩⟩⟩
  · exact absurd rfl hne
  · have := hlt a
    simp [value] at hlo hhi
    simp [wput]
    exact hbyte a _ (by omega)
  · have := hlt a
    have := hlt b
    simp [value] at hlo hhi
    simp [wput]
    exact ⟨hbyte a _ (by omega), hbyte b _ (by omega)⟩
  · have := hlt a
    have := hlt b
    have := hlt c
    simp [value] at hlo hhi
    simp [wput]
    exact ⟨hbyte a _ (by omega), hbyte b _ (by omega), hbyte c _ (by omega)⟩
  · have := hlt a
    have := hlt b
    have := hlt c
    have := hlt d
    simp [value] at hlo hhi
    simp [wput]
    exact ⟨hbyte a _ (by omega), hbyte b _ (by omega), hbyte c _ (by omega), hbyte d _ (by omega)⟩
  · simp only [List.length_cons] at hlen
    omega

/-- The decoder's number is the encoder's, modulo `85 ^ 5`, or a little more. -/
theorem decodedTuple_range (size : Long) {group : Bytes} (h : Group group) :
    tupleOf size group % 85 ^ 5 ≤ decodedTuple size group ∧
      decodedTuple size group < tupleOf size group % 85 ^ 5 + 2 ^ (8 * (4 - group.length)) ∧
      decodedTuple size group ≤ tupleOf size group % 85 ^ 5 + 85 ^ 3 := by
  unfold decodedTuple
  dsimp only
  generalize tupleOf size group % 85 ^ 5 = tuple
  split_ifs with hfull
  · rw [hfull]
    exact ⟨le_rfl, Nat.lt_succ_self _, Nat.le_add_right _ _⟩
  · have hpos := List.length_pos_iff.mpr h.1
    have hlen := h.2
    have hlow : tuple % 85 ^ (4 - group.length) < 85 ^ (4 - group.length) :=
      Nat.mod_lt _ (Nat.pow_pos (Nat.succ_pos _))
    have hsmall : 85 ^ (4 - group.length) < 2 ^ (8 * (4 - group.length)) := by
      rw [Nat.pow_mul]
      exact Nat.pow_lt_pow_left (by decide) (by omega)
    have hthree : 85 ^ (4 - group.length) ≤ 85 ^ 3 :=
      Nat.pow_le_pow_right (Nat.succ_pos _) (by omega)
    have hle := Nat.mod_le tuple (85 ^ (4 - group.length))
    omega

/-- A group whose first byte has no sign comes back. -/
theorem decoded_eq {size : Long} {group : Bytes} (h : Group group)
    (hsign : signBits size (group.headD 0) = 0) : decoded size group = group := by
  obtain ⟨hlo, hhi, -⟩ := decodedTuple_range size h
  have hvalue := value_add_le (n := 3) h.2
  have htuple : tupleOf size group % 85 ^ 5 = value 3 group := by
    have hpos : 0 < 2 ^ (8 * (3 + 1 - group.length)) := Nat.pow_pos (Nat.succ_pos 1)
    rw [tupleOf, hsign, Nat.zero_add]
    exact Nat.mod_eq_of_lt (show value 3 group < 4437053125 by omega)
  rw [htuple] at hlo hhi
  rw [decoded, Nat.mod_eq_of_lt]
  · exact wput_value h hlo hhi
  · have hsize : 2 ^ 32 ≤ size.modulus := by cases size <;> decide
    exact (hhi.trans_le hvalue).trans_le hsize

/-- With a sign, already the first byte is another. -/
theorem decoded_ne {size : Long} {group : Bytes} (h : Group group)
    (hsign : signBits size (group.headD 0) ≠ 0) : decoded size group ≠ group := by
  obtain ⟨a, group, rfl⟩ := List.exists_cons_of_ne_nil h.1
  have hsize : size = .bits64 ∧ 128 ≤ a := by
    by_contra hnot
    exact hsign (if_neg hnot)
  obtain ⟨rfl, ha⟩ := hsize
  obtain ⟨hlo, -, hhi⟩ := decodedTuple_range .bits64 h
  have hrest := value_add_le (n := 2) (Nat.le_of_succ_le_succ h.2)
  have hpos : 0 < 2 ^ (8 * (2 + 1 - group.length)) := Nat.pow_pos (Nat.succ_pos 1)
  have htuple : tupleOf .bits64 (a :: group) =
      (2 ^ 64 - 2 ^ 32) + (a.toNat * 2 ^ 24 + value 2 group) := by
    rw [tupleOf, List.headD_cons, signBits, if_pos ⟨rfl, ha⟩]
    rfl
  have hlt : a.toNat < 256 := a.toNat_lt
  have hge : 128 ≤ a.toNat := ha
  -- `2 ^ 64 - 2 ^ 32` and `2 ^ 32` are not the same modulo `85 ^ 5`
  have hmod : (2 ^ 64 - 2 ^ 32 + (a.toNat * 2 ^ 24 + value 2 group)) % 85 ^ 5 + 232550055 =
      a.toNat * 2 ^ 24 + value 2 group := by
    clear hlo hhi htuple
    generalize value 2 group = low at hrest ⊢
    omega
  rw [htuple] at hlo hhi
  intro heq
  have hhead : UInt8.ofNat (decodedTuple .bits64 (a :: group) % Long.bits64.modulus / 2 ^ 24) = a :=
    (List.cons.inj heq).1
  have hbyte := congrArg UInt8.toNat hhead
  rw [UInt8.toNat_ofNat', show Long.bits64.modulus = 2 ^ 64 from rfl] at hbyte
  generalize decodedTuple .bits64 (a :: group) = v at hlo hhi hbyte
  omega

/-! ## The digits of a group -/

/-- What digits stand for, from the place `count` on. -/
def weight : Nat → List Nat → Nat
  | _, [] => 0
  | count, x :: xs => x * pow85 count + weight (count + 1) xs

theorem foldl_digit (size : Long) {d : Decoder} {xs : List Nat} (h : d.count + xs.length < 5)
    (htuple : d.tuple < size.modulus) :
    xs.foldl (digit size) d = { d with
      count := d.count + xs.length, tuple := (d.tuple + weight d.count xs) % size.modulus } := by
  induction xs generalizing d with
  | nil => rw [List.foldl_nil, weight, Nat.add_zero, Nat.mod_eq_of_lt htuple]; rfl
  | cons x xs ih =>
      rw [List.length_cons] at h
      have hmod : (d.tuple + x * pow85 d.count) % size.modulus < size.modulus :=
        Nat.mod_lt _ (Nat.zero_lt_of_lt htuple)
      have hdigit : digit size d x = { d with
          count := d.count + 1, tuple := (d.tuple + x * pow85 d.count) % size.modulus } :=
        if_neg (by omega)
      rw [List.foldl_cons, hdigit, ih (by dsimp only; omega) hmod, weight, List.length_cons]
      dsimp only
      rw [Nat.mod_add_mod, Nat.add_assoc, Nat.add_assoc, Nat.add_comm 1]

/-- The first digits of a number. -/
theorem weight_buf (tuple : Nat) {n : Nat} (hn : n ≤ 4) :
    weight 0 ((buf 5 tuple).reverse.take (n + 1)) =
      tuple % 85 ^ 5 - tuple % 85 ^ 5 % 85 ^ (4 - n) := by
  interval_cases n <;> simp [buf, weight, pow85] <;> omega

theorem mem_buf {i tuple x : Nat} (h : x ∈ buf i tuple) : x < 85 := by
  induction i generalizing tuple with
  | zero => exact absurd h List.not_mem_nil
  | succ i ih =>
      obtain rfl | h := List.mem_cons.mp h
      · exact Nat.mod_lt _ (Nat.succ_pos _)
      · exact ih h

theorem length_buf (i tuple : Nat) : (buf i tuple).length = i := by
  induction i generalizing tuple with
  | zero => rfl
  | succ i ih => rw [buf, List.length_cons, ih]

/-- The digits of a group are read. -/
theorem writes_encodeChar (size : Long) (width : Int) (e : Encoder) (d : Decoder)
    (tuple count : Nat) :
    Writes size e (encodeChar width e tuple count) d
      (((buf 5 tuple).reverse.take (count + 1)).foldl (digit size) d) := by
  refine writes_digits width e d fun x hx => ?_
  exact mem_buf (List.mem_reverse.mp (List.mem_of_mem_take hx))

theorem modulus_pos (size : Long) : 0 < size.modulus := by
  cases size <;> decide

theorem weight_concat (count : Nat) (xs : List Nat) (x : Nat) :
    weight count (xs ++ [x]) = weight count xs + x * pow85 (count + xs.length) := by
  induction xs generalizing count with
  | nil => exact Nat.add_comm _ _
  | cons y xs ih =>
      rw [List.cons_append, weight, ih, weight, List.length_cons,
        show count + 1 + xs.length = count + (xs.length + 1) by omega, ← Nat.add_assoc]

/-- A whole group. -/
theorem writes_whole (size : Long) (width : Int) (e : Encoder) {d : Decoder} (hcount : d.count = 0)
    (htuple : d.tuple = 0) {group : Bytes} (hlen : group.length = 4) :
    Writes size e (encodeChar width e (tupleOf size group) 4) d
      { d with output := d.output ++ decoded size group } := by
  have hwrites := writes_encodeChar size width e d (tupleOf size group) 4
  have hweight := weight_buf (tupleOf size group) (le_refl 4)
  have hxs : ((buf 5 (tupleOf size group)).reverse.take 5).length = 5 := by
    rw [List.length_take, List.length_reverse, length_buf, Nat.min_self]
  generalize (buf 5 (tupleOf size group)).reverse.take 5 = xs at hwrites hweight hxs
  -- the last digit completes the group
  obtain rfl | ⟨ys, x, rfl⟩ := List.eq_nil_or_concat' xs
  · exact absurd hxs (by decide)
  have hys : ys.length = 4 := by simpa using hxs
  have hsum : weight 0 ys + x * pow85 4 = decodedTuple size group := by
    rw [weight_concat, hys] at hweight
    rw [decodedTuple, if_pos hlen]
    exact hweight.trans (by rw [Nat.sub_self, pow_zero, Nat.mod_one, Nat.sub_zero])
  have hfirst : d.count + ys.length < 5 := by omega
  rw [List.foldl_append, foldl_digit size hfirst (htuple ▸ modulus_pos size)] at hwrites
  convert hwrites using 1
  rw [List.foldl_cons, List.foldl_nil, digit, hcount, htuple, hys]
  dsimp only
  rw [Nat.zero_add, Nat.zero_add, if_pos rfl, Nat.mod_add_mod, hsum, decoded, hlen]

/-- A group that is shorter, at the end. -/
theorem writes_part (size : Long) (width : Int) (e : Encoder) {d : Decoder} (hcount : d.count = 0)
    (htuple : d.tuple = 0) {group : Bytes} (hlen : group.length < 4) (hne : group ≠ []) :
    ∃ d', Writes size e (encodeChar width e (tupleOf size group) group.length) d d' ∧
      (onEnd size d').output = d.output ++ decoded size group := by
  have hpos := List.length_pos_iff.mpr hne
  refine ⟨_, writes_encodeChar size width e d (tupleOf size group) group.length, ?_⟩
  have hxs : ((buf 5 (tupleOf size group)).reverse.take (group.length + 1)).length =
      group.length + 1 := by
    rw [List.length_take, List.length_reverse, length_buf]
    exact Nat.min_eq_left (by omega)
  rw [foldl_digit size (by rw [hcount, hxs]; omega) (htuple ▸ modulus_pos size), hcount, htuple,
    hxs, weight_buf _ hlen.le, onEnd]
  dsimp only
  have hpow : pow85 (0 + (group.length + 1) - 1) = 85 ^ (4 - group.length) := by
    rw [Nat.zero_add, Nat.add_sub_cancel, pow85]
  rw [if_pos (by omega), Nat.zero_add, hpow, Nat.mod_add_mod, decoded, decodedTuple,
    if_neg (by omega), Nat.zero_add, Nat.add_sub_cancel]

/-! ## The loop of the encoder -/

theorem shifted_eq (size : Long) (c : UInt8) {n : Nat} (hn : n ≤ 16) :
    shifted size c n = c.toNat * 2 ^ n := by
  have hpow : 2 ^ n ≤ 2 ^ 16 := Nat.pow_le_pow_right (Nat.succ_pos 1) hn
  have hc : c.toNat < 256 := c.toNat_lt
  have hlt : c.toNat * 2 ^ n < 2 ^ 24 := by
    calc c.toNat * 2 ^ n ≤ c.toNat * 2 ^ 16 := Nat.mul_le_mul_left _ hpow
      _ < 256 * 2 ^ 16 := Nat.mul_lt_mul_of_pos_right hc (by decide)
      _ = 2 ^ 24 := by decide
  have hsize : 2 ^ 32 ≤ size.modulus := by cases size <;> decide
  have hcast : (c.toNat : Int) * 2 ^ n = ((c.toNat * 2 ^ n : Nat) : Int) := by
    push_cast
    rfl
  rw [shifted, hcast]
  generalize c.toNat * 2 ^ n = v at hlt
  rw [int32_of_range (by omega) (by omega), ← Int.natCast_emod, Int.toNat_natCast,
    Nat.mod_eq_of_lt (by omega)]

/-- The sign of the first byte. -/
theorem shifted_first (size : Long) (c : UInt8) : shifted size c 24 = tupleOf size [c] := by
  have hc : c.toNat < 256 := c.toNat_lt
  have hge : 128 ≤ c ↔ 128 ≤ c.toNat := Iff.rfl
  have hint : int32 (c.toNat * 2 ^ 24) =
      if 128 ≤ c then (c.toNat : Int) * 2 ^ 24 - 2 ^ 32 else (c.toNat : Int) * 2 ^ 24 := by
    rw [int32, Int.bmod_def]
    split_ifs with hlow hsign hsign <;> rw [hge] at hsign <;> omega
  have htuple : tupleOf size [c] = signBits size c + c.toNat * 2 ^ 24 := congrArg _ (Nat.add_zero _)
  rw [htuple, shifted, signBits, hint]
  cases size with
  | bits32 =>
      rw [if_neg (show ¬(Long.bits32 = .bits64 ∧ 128 ≤ c) from fun h => absurd h.1 (by decide)),
        show Long.bits32.modulus = 2 ^ 32 from rfl]
      split_ifs <;> omega
  | bits64 =>
      rw [show Long.bits64.modulus = 2 ^ 64 from rfl]
      split_ifs with hsign h h
      · omega
      · exact absurd ⟨rfl, hsign⟩ h
      · exact absurd h.2 hsign
      · omega

theorem value_concat {n : Nat} {group : Bytes} (h : group.length ≤ n) (c : UInt8) :
    value n (group ++ [c]) = value n group + c.toNat * 2 ^ (8 * (n - group.length)) := by
  induction group generalizing n with
  | nil => exact (Nat.zero_add _).symm
  | cons b group ih =>
      obtain ⟨n, rfl⟩ := Nat.exists_eq_succ_of_ne_zero (show n ≠ 0 by simp at h; omega)
      rw [List.cons_append, value, Nat.succ_sub_one, ih (Nat.le_of_succ_le_succ h), value,
        Nat.succ_sub_one, List.length_cons, Nat.succ_sub_succ, Nat.add_assoc]

/-- Below a group, there is room for the next byte. -/
theorem dvd_value {n : Nat} {group : Bytes} (h : group.length ≤ n + 1) :
    2 ^ (8 * (n + 1 - group.length)) ∣ value n group := by
  induction group generalizing n with
  | nil => exact Nat.dvd_zero _
  | cons c group ih =>
      rw [List.length_cons, Nat.add_sub_add_right, value]
      refine Nat.dvd_add (Dvd.dvd.mul_left (Nat.pow_dvd_pow 2 (by omega)) _) ?_
      cases n with
      | zero =>
          obtain rfl : group = [] := List.length_eq_zero_iff.mp (by simpa using h)
          exact Nat.dvd_zero _
      | succ n => exact ih (Nat.le_of_succ_le_succ h)

/-- The next byte of a group. -/
theorem tupleOf_concat (size : Long) {group : Bytes} (hne : group ≠ []) (hlen : group.length ≤ 3)
    (c : UInt8) :
    tupleOf size group ||| c.toNat * 2 ^ (8 * (3 - group.length)) =
      tupleOf size (group ++ [c]) := by
  have hsign : 2 ^ (8 * (3 + 1 - group.length)) ∣ signBits size (group.headD 0) := by
    unfold signBits
    split_ifs
    · exact (Nat.pow_dvd_pow 2 (by omega)).trans (show 2 ^ 32 ∣ 2 ^ 64 - 2 ^ 32 by decide)
    · exact Nat.dvd_zero _
  have hhead : (group ++ [c]).headD 0 = group.headD 0 := by
    obtain ⟨b, group, rfl⟩ := List.exists_cons_of_ne_nil hne
    rfl
  have hbyte : c.toNat * 2 ^ (8 * (3 - group.length)) < 2 ^ (8 * (3 + 1 - group.length)) := by
    rw [show 8 * (3 + 1 - group.length) = 8 + 8 * (3 - group.length) by omega, Nat.pow_add]
    exact Nat.mul_lt_mul_of_pos_right c.toNat_lt (Nat.pow_pos (Nat.succ_pos 1))
  obtain ⟨x, hx⟩ := Nat.dvd_add hsign (dvd_value (n := 3) (Nat.le_succ_of_le hlen))
  rw [tupleOf, tupleOf, hhead, value_concat hlen, ← Nat.add_assoc, hx,
    Nat.two_pow_add_eq_or_of_lt hbyte]

/-- What the decoder writes for all groups. -/
def decodedAll (size : Long) : Bytes → Bytes
  | a :: b :: c :: d :: input => decoded size [a, b, c, d] ++ decodedAll size input
  | [] => []
  | input => decoded size input

/-- `tuple` after two, three and four bytes. -/
theorem tupleOf_two (size : Long) (a b : UInt8) :
    0 ||| shifted size a 24 ||| shifted size b 16 = tupleOf size [a, b] := by
  rw [Nat.zero_or, shifted_first, shifted_eq size b (Nat.le_refl 16)]
  exact tupleOf_concat size (List.cons_ne_nil _ _) (Nat.le_of_ble_eq_true rfl) b

theorem tupleOf_three (size : Long) (a b c : UInt8) :
    0 ||| shifted size a 24 ||| shifted size b 16 ||| shifted size c 8 =
      tupleOf size [a, b, c] := by
  rw [tupleOf_two, shifted_eq size c (Nat.le_of_ble_eq_true rfl)]
  exact tupleOf_concat size (List.cons_ne_nil _ _) (Nat.le_of_ble_eq_true rfl) c

theorem tupleOf_four (size : Long) (a b c d : UInt8) :
    0 ||| shifted size a 24 ||| shifted size b 16 ||| shifted size c 8 ||| d.toNat =
      tupleOf size [a, b, c, d] := by
  have hlast := tupleOf_concat size (List.cons_ne_nil a [b, c]) (Nat.le_refl 3) d
  rw [tupleOf_three]
  rwa [show 8 * (3 - [a, b, c].length) = 0 from rfl, pow_zero, Nat.mul_one] at hlast

/-- A group of zeros is one character. -/
theorem decoded_zero (size : Long) {group : Bytes} (hlen : group.length = 4)
    (h : tupleOf size group = 0) : decoded size group = [0, 0, 0, 0] := by
  rw [decoded, decodedTuple, if_pos hlen, h, hlen]
  cases size <;> decide

/-- A group of four bytes. -/
theorem writes_group (size : Long) (width : Int) (e : Encoder) {d : Decoder} (hcount : d.count = 0)
    (htuple : d.tuple = 0) {group : Bytes} (hlen : group.length = 4) :
    Writes size e (if tupleOf size group = 0 then put width e 122
        else encodeChar width e (tupleOf size group) 4) d
      { d with output := d.output ++ decoded size group } := by
  split_ifs with hzero
  · rw [decoded_zero size hlen hzero]
    exact writes_put width e (reads_z size hcount)
  · exact writes_whole size width e hcount htuple hlen

theorem encodeLoop_four (size : Long) (width : Int) (e : Encoder) (a b c x : UInt8)
    (input : Bytes) :
    encodeLoop size width 0 0 e (a :: b :: c :: x :: input) =
      encodeLoop size width 0 0 (if tupleOf size [a, b, c, x] = 0 then put width e 122
        else encodeChar width e (tupleOf size [a, b, c, x]) 4) input := by
  rw [← tupleOf_four]
  rfl

/-- Up to three bytes at the end. -/
theorem encodeLoop_part (size : Long) (width : Int) (e : Encoder) {group : Bytes} (hne : group ≠ [])
    (hlen : group.length < 4) :
    encodeLoop size width 0 0 e group = encodeChar width e (tupleOf size group) group.length := by
  rcases group with _ | ⟨a, _ | ⟨b, _ | ⟨c, _ | ⟨x, group⟩⟩⟩⟩
  · exact absurd rfl hne
  · rw [← shifted_first, ← Nat.zero_or (shifted size a 24)]
    rfl
  · rw [← tupleOf_two]
    rfl
  · rw [← tupleOf_three]
    rfl
  · simp at hlen
    omega

/-- **What the loop of the encoder writes, the decoder reads, group by group.** -/
theorem writes_loop (size : Long) (width : Int) (input : Bytes) (e : Encoder) {d : Decoder}
    (hcount : d.count = 0) (htuple : d.tuple = 0) :
    ∃ d', Writes size e (encodeLoop size width 0 0 e input) d d' ∧
      (onEnd size d').output = d.output ++ decodedAll size input := by
  induction input using decodedAll.induct generalizing e d with
  | case1 a b c x input ih =>
      have hgroup := writes_group size width e hcount htuple (show [a, b, c, x].length = 4 from rfl)
      obtain ⟨d', hwrites, hend⟩ := ih (if tupleOf size [a, b, c, x] = 0 then put width e 122
        else encodeChar width e (tupleOf size [a, b, c, x]) 4)
        (d := { d with output := d.output ++ decoded size [a, b, c, x] }) hcount htuple
      rw [encodeLoop_four]
      exact ⟨d', hgroup.trans hwrites, by rw [hend, decodedAll, List.append_assoc]⟩
  | case2 =>
      refine ⟨d, ⟨[], (List.append_nil _).symm, fun rest => .refl⟩, ?_⟩
      rw [onEnd, hcount]
      exact (List.append_nil _).symm
  | case3 input hfour hne =>
      have hlen : input.length < 4 := by
        rcases input with _ | ⟨a, _ | ⟨b, _ | ⟨c, _ | ⟨x, input⟩⟩⟩⟩
        · simp
        · simp
        · simp
        · simp
        · exact absurd rfl (hfour a b c x input)
      rw [encodeLoop_part size width e hne hlen, decodedAll]
      · exact writes_part size width e hcount htuple hlen hne
      · exact hfour
      · exact hne

/-! ## Round trips -/

/-- No group begins with a byte that has a sign. -/
def Plain (size : Long) (bytes : Bytes) : Prop :=
  size = .bits32 ∨ ∀ i, ∀ b ∈ bytes[4 * i]?, b < 128

theorem signBits_eq_zero (size : Long) (c : UInt8) :
    signBits size c = 0 ↔ size = .bits32 ∨ c < 128 := by
  rw [signBits, ← UInt8.not_le]
  cases size with
  | bits32 => exact iff_of_true (if_neg fun h => absurd h.1 (by decide)) (.inl rfl)
  | bits64 =>
      by_cases hc : 128 ≤ c
      · rw [if_pos ⟨rfl, hc⟩]
        exact iff_of_false (by decide) fun h => h.elim (by decide) (absurd hc)
      · exact iff_of_true (if_neg fun h => hc h.2) (.inr hc)

/-- The first group and the others. -/
theorem plain_append (size : Long) {group : Bytes} (rest : Bytes) (h : Group group)
    (hrest : group.length = 4 ∨ rest = []) :
    Plain size (group ++ rest) ↔ signBits size (group.headD 0) = 0 ∧ Plain size rest := by
  have hindex : ∀ i, (group ++ rest)[4 * (i + 1)]? = rest[4 * i]? := by
    intro i
    rw [List.getElem?_append_right (h.2.trans (by omega))]
    obtain hfull | rfl := hrest
    · rw [hfull, Nat.mul_succ, Nat.add_sub_cancel]
    · rw [List.getElem?_nil, List.getElem?_nil]
  obtain ⟨a, group, rfl⟩ := List.exists_cons_of_ne_nil h.1
  rw [signBits_eq_zero, List.headD_cons]
  unfold Plain
  constructor
  · rintro (hsize | hbytes)
    · exact ⟨.inl hsize, .inl hsize⟩
    · exact ⟨.inr (hbytes 0 a rfl), .inr fun i b hb => hbytes (i + 1) b ((hindex i).symm ▸ hb)⟩
  · rintro ⟨hsize | ha, hsize' | hbytes⟩
    · exact .inl hsize
    · exact .inl hsize
    · exact .inl hsize'
    · refine .inr fun i b hb => ?_
      cases i with
      | zero => exact Option.some.inj hb ▸ ha
      | succ i => exact hbytes i b (hindex i ▸ hb)

theorem decoded_eq_iff (size : Long) {group : Bytes} (h : Group group) :
    decoded size group = group ↔ signBits size (group.headD 0) = 0 :=
  ⟨fun heq => by_contra fun hsign => decoded_ne h hsign heq, decoded_eq h⟩

/-- The decoder writes as many bytes, and the same ones if no group has a sign. -/
theorem decodedAll_eq_iff (size : Long) (bytes : Bytes) :
    (decodedAll size bytes).length = bytes.length ∧
      (decodedAll size bytes = bytes ↔ Plain size bytes) := by
  induction bytes using decodedAll.induct with
  | case1 a b c x input ih =>
      have hgroup : Group [a, b, c, x] := ⟨List.cons_ne_nil _ _, Nat.le_refl 4⟩
      have hlen := length_decoded size hgroup
      have hsplit := plain_append size input hgroup (.inl rfl)
      rw [decodedAll]
      constructor
      · rw [List.length_append, hlen, ih.1]
        exact Nat.add_comm _ _
      · show _ = [a, b, c, x] ++ input ↔ Plain size ([a, b, c, x] ++ input)
        rw [hsplit, ← ih.2, ← decoded_eq_iff size hgroup]
        constructor
        · exact fun heq => List.append_inj heq hlen
        · rintro ⟨hfirst, hothers⟩
          rw [hfirst, hothers]
  | case2 => exact ⟨rfl, iff_of_true rfl (.inr fun i b hb => absurd hb (by simp))⟩
  | case3 input hfour hne =>
      have hgroup : Group input := by
        refine ⟨hne, ?_⟩
        rcases input with _ | ⟨a, _ | ⟨b, _ | ⟨c, _ | ⟨x, input⟩⟩⟩⟩
        · simp
        · simp
        · simp
        · simp
        · exact absurd rfl (hfour a b c x input)
      have hsplit := plain_append size [] hgroup (.inr rfl)
      rw [List.append_nil] at hsplit
      rw [decodedAll, hsplit, decoded_eq_iff size hgroup]
      · exact ⟨length_decoded size hgroup,
          (and_iff_left (.inr fun i b hb => absurd hb (by simp))).symm⟩
      · exact hfour
      · exact hne

/-- What the decoder writes for a file that the encoder has written. -/
theorem eval_encode (size : Long) (width : Int) (bytes oldEncoded : Bytes) :
    ∃ d ∈ eval (next size) (start (overwrite oldEncoded (encode size width bytes))),
      d.control = .returned true ∧ d.output = decodedAll size bytes := by
  obtain ⟨d, ⟨s, hs, hreads⟩, hend⟩ := writes_loop size width bytes ⟨0, []⟩
    (show (start []).count = 0 from rfl) (show (start []).tuple = 0 from rfl)
  obtain ⟨line, hline, htext⟩ : ∃ line, Reads size line d d ∧
      encode size width bytes = s ++ line ++ [126, 62, 10] := by
    rw [encode, hs]
    dsimp only
    split_ifs
    · exact ⟨[10], reads_newline size d, rfl⟩
    · exact ⟨[], fun rest => .refl, rfl⟩
  have hmark : ∀ tail, Reaches (next size) { d with control := .read, input := 126 :: 62 :: tail }
      (onEnd size { d with control := .skip 62, input := tail }) := by
    intro tail
    exact .tail (.single rfl) rfl
  have hfile : overwrite oldEncoded (encode size width bytes) = (s ++ line) ++
      (126 :: 62 :: 10 :: oldEncoded.drop (encode size width bytes).length) := by
    rw [overwrite]
    nth_rewrite 1 [htext]
    exact List.append_assoc _ _ _
  generalize 10 :: oldEncoded.drop (encode size width bytes).length = tail at hfile
  have hreach : Reaches (next size) (start (overwrite oldEncoded (encode size width bytes)))
      (onEnd size { d with control := .skip 62, input := tail }) := by
    rw [hfile]
    exact (hreads.append hline (126 :: 62 :: tail)).trans (hmark tail)
  exact ⟨_, mem_eval.mpr ⟨hreach, rfl⟩, rfl, hend⟩

/-- **The round trip.** `Decode` brings back the bytes exactly if an `unsigned long` has 32 bits or
each group begins with a byte below 128, and its file was not longer than the bytes before. -/
theorem roundTrip_iff (size : Long) (width : Int) (bytes oldEncoded oldDecoded : Bytes) :
    RoundTrip size width bytes oldEncoded oldDecoded ↔
      Plain size bytes ∧ oldDecoded.length ≤ bytes.length := by
  obtain ⟨d, hd, hret, houtput⟩ := eval_encode size width bytes oldEncoded
  obtain ⟨hlen, heq⟩ := decodedAll_eq_iff size bytes
  have hfile : RoundTrip size width bytes oldEncoded oldDecoded ↔
      overwrite oldDecoded (decodedAll size bytes) = bytes := by
    constructor
    · rintro ⟨d', hd', -, hbytes⟩
      rwa [Part.mem_unique hd' hd, houtput] at hbytes
    · exact fun hbytes => ⟨d, hd, hret, houtput ▸ hbytes⟩
  rw [hfile, ← heq, ← List.drop_eq_nil_iff, overwrite, hlen]
  constructor
  · intro hbytes
    exact List.append_inj (hbytes.trans (List.append_nil bytes).symm) hlen
  · rintro ⟨hbytes, hold⟩
    rw [hbytes, hold, List.append_nil]

/-- One byte with a sign, in 64 bits; and a file that was longer, in 32 bits. -/
theorem roundTrip_lost :
    ¬RoundTrip .bits64 72 [128] [] [] ∧ ¬RoundTrip .bits32 72 [97] [] [98, 98] := by
  have houtput : ∀ size bytes oldDecoded, RoundTrip size 72 bytes [] oldDecoded →
      overwrite oldDecoded (decodedAll size bytes) = bytes := by
    rintro size bytes oldDecoded ⟨d', hd', -, hbytes⟩
    obtain ⟨d, hd, -, heq⟩ := eval_encode size 72 bytes []
    rwa [Part.mem_unique hd' hd, heq] at hbytes
  exact ⟨fun h => absurd (houtput _ _ _ h) (by decide),
    fun h => absurd (houtput _ _ _ h) (by decide)⟩

end Nsdci.Ascii85
