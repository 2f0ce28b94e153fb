import Nsdci.Lib.CString
import Mathlib.Computability.StateTransition

/-!
# ASCII 85 (`ascii85.c`)

`Encode` writes four bytes as five digits of base 85, and `Decode` reads them back. Here is
`Decode`, one `read` after the other: a read at the end of the file leaves the character as it was.

`decode_ends_iff` says for which files `Decode` comes to an end.
-/

namespace Nsdci.Ascii85

open Lib
open StateTransition (Reaches eval mem_eval reaches_eval)

/-! ## The decoder -/

/-- The size of an `unsigned long`. -/
inductive Long where
  | bits32
  | bits64
  deriving DecidableEq

/-- One more than the largest `unsigned long`. -/
def Long.modulus : Long → Nat
  | .bits32 => 2 ^ 32
  | .bits64 => 2 ^ 64

/-- `pow85`. -/
def pow85 (count : Nat) : Nat := 85 ^ (4 - count)

/-- `Wput`: the first bytes of the lower 32 bits. -/
def wput (tuple bytes : Nat) : Bytes :=
  ([tuple / 2 ^ 24, tuple / 2 ^ 16, tuple / 2 ^ 8, tuple].take bytes).map UInt8.ofNat

/-- A digit, from `!` to `u`. -/
def IsDigit85 (c : UInt8) : Prop := 33 ≤ c ∧ c ≤ 117

instance (c : UInt8) : Decidable (IsDigit85 c) := inferInstanceAs (Decidable (_ ∧ _))

/-- The characters that `Decode` skips by name. -/
def Skipped (c : UInt8) : Prop := c ∈ [13, 10, 9, 0, 12, 8, 127]

instance (c : UInt8) : Decidable (Skipped c) := inferInstanceAs (Decidable (_ ∈ _))

/-- Where `Decode` is: at the `read` of the outer loop, at the test of the inner one, or back. -/
inductive Control where
  | read
  | skip (c : UInt8)
  | returned (ok : Bool)
  deriving DecidableEq

/-- The variables of `Decode`, what is left of its input, and what it has written. -/
structure Decoder where
  control : Control
  input : Bytes
  count : Nat
  tuple : Nat
  output : Bytes

/-- A `read` into `c` that nobody checks. -/
def readChar (c : UInt8) : Bytes → UInt8 × Bytes
  | [] => (c, [])
  | c :: input => (c, input)

/-- What `Decode` does with a character. -/
def onChar (size : Long) (d : Decoder) (c : UInt8) (input : Bytes) : Decoder :=
  if IsDigit85 c then
    let tuple := (d.tuple + (c.toNat - 33) * pow85 d.count) % size.modulus
    if d.count + 1 = 5 then
      { d with input, count := 0, tuple := 0, output := d.output ++ wput tuple 4 }
    else { d with input, count := d.count + 1, tuple }
  else if c = 122 then
    if d.count ≠ 0 then { d with input, control := .returned false }
    else { d with input, output := d.output ++ [0, 0, 0, 0] }
  else if c = 126 then
    { d with control := .skip (readChar c input).1, input := (readChar c input).2 }
  else { d with input }

/-- The end mark is complete: the last group. -/
def onEnd (size : Long) (d : Decoder) : Decoder :=
  let output := if d.count > 0 then
      d.output ++ wput ((d.tuple + pow85 (d.count - 1)) % size.modulus) (d.count - 1)
    else d.output
  { d with control := .returned true, input := (readChar 0 d.input).2, output }

/-- One step of `Decode`. -/
def next (size : Long) (d : Decoder) : Option Decoder :=
  match d.control with
  | .read => match d.input with
      | [] => some { d with control := .returned true }
      | c :: input => some (onChar size d c input)
  | .skip c =>
      if Skipped c then
        some { d with control := .skip (readChar c d.input).1, input := (readChar c d.input).2 }
      else if c = 62 then some (onEnd size d)
      else some { d with control := .returned false }
  | .returned _ => none

/-- Before the first step. -/
def start (input : Bytes) : Decoder := ⟨.read, input, 0, 0, []⟩

/-! ## Where it ends -/

/-- `Decode` returns, with an error or with what it has written. -/
def Ends (size : Long) (input : Bytes) : Prop :=
  ∃ d ok, d ∈ eval (next size) (start input) ∧ d.control = .returned ok

/-- The number of digits. -/
def digitCount (s : Bytes) : Nat := s.countP (IsDigit85 ·)

/-- Where there is a `z`, the groups before it are whole. -/
def Whole (s : Bytes) : Prop := ∀ p q, s = p ++ 122 :: q → 5 ∣ digitCount p

/-- After a `~`, the file has only characters that are skipped, one at least, and no error comes
before. -/
def Endless (input : Bytes) : Prop :=
  ∃ front blanks, input = front ++ 126 :: blanks ∧ 126 ∉ front ∧ Whole front ∧
    blanks ≠ [] ∧ ∀ c ∈ blanks, Skipped c

/-! ## Up to the end mark -/

theorem not_isDigit85 {c : UInt8} (h : c = 122 ∨ c = 126) : ¬IsDigit85 c := by
  obtain rfl | rfl := h <;> decide

theorem digitCount_cons (c : UInt8) (s : Bytes) :
    digitCount (c :: s) = (if IsDigit85 c then 1 else 0) + digitCount s := by
  unfold digitCount
  rw [List.countP_cons, Nat.add_comm]
  split_ifs <;> simp_all

/-- `Whole`, with some digits read before. -/
def WholeFrom (count : Nat) (s : Bytes) : Prop :=
  ∀ p q, s = p ++ 122 :: q → (count + digitCount p) % 5 = 0

theorem wholeFrom_zero {s : Bytes} : WholeFrom 0 s ↔ Whole s := by
  unfold WholeFrom Whole
  simp only [Nat.zero_add, Nat.dvd_iff_mod_eq_zero]

theorem wholeFrom_nil (count : Nat) : WholeFrom count [] := by
  intro p q h
  exact absurd h.symm (List.append_ne_nil_of_right_ne_nil p (List.cons_ne_nil _ _))

theorem wholeFrom_cons {count : Nat} {c : UInt8} {s : Bytes} :
    WholeFrom count (c :: s) ↔ (c = 122 → count % 5 = 0) ∧
      WholeFrom ((count + if IsDigit85 c then 1 else 0) % 5) s := by
  constructor
  · intro h
    refine ⟨fun hc => h [] s (by rw [hc]; rfl), fun p q hs => ?_⟩
    have hp := h (c :: p) q (by rw [hs]; rfl)
    rw [digitCount_cons] at hp
    omega
  · rintro ⟨hhead, htail⟩ p q hs
    cases p with
    | nil => exact hhead (List.cons.inj hs).1
    | cons b p =>
        obtain ⟨rfl, hrest⟩ := List.cons.inj hs
        have hp := htail p q hrest
        rw [digitCount_cons]
        omega

/-- A character that neither ends the text nor stands in the wrong place is read. -/
theorem onChar_read (size : Long) {d : Decoder} (hread : d.control = .read) (hcount : d.count < 5)
    {c : UInt8} (hc : c ≠ 126) (hz : c = 122 → d.count % 5 = 0) (input : Bytes) :
    (onChar size d c input).control = .read ∧ (onChar size d c input).input = input ∧
      (onChar size d c input).count = (d.count + if IsDigit85 c then 1 else 0) % 5 := by
  unfold onChar
  split_ifs with hdigit hfull hzc hwrong
  · exact ⟨hread, rfl, by rw [hfull]⟩
  · exact ⟨hread, rfl, (Nat.mod_eq_of_lt (show d.count + 1 < 5 by omega)).symm⟩
  · have := hz hzc
    omega
  · exact ⟨hread, rfl, (Nat.mod_eq_of_lt (show d.count + 0 < 5 by omega)).symm⟩
  · exact ⟨hread, rfl, (Nat.mod_eq_of_lt (show d.count + 0 < 5 by omega)).symm⟩

/-- What is before the end mark is read, or there is an error in it. -/
theorem read_front (size : Long) {d : Decoder} {front rest : Bytes} (hread : d.control = .read)
    (hinput : d.input = front ++ rest) (hcount : d.count < 5) (hfront : 126 ∉ front) :
    (WholeFrom d.count front → ∃ d', Reaches (next size) d d' ∧ d'.control = .read ∧
        d'.input = rest ∧ d'.count < 5) ∧
      (¬WholeFrom d.count front → ∃ d', Reaches (next size) d d' ∧
        d'.control = .returned false) := by
  induction front generalizing d with
  | nil => exact ⟨fun _ => ⟨d, .refl, hread, hinput, hcount⟩, fun h => absurd (wholeFrom_nil _) h⟩
  | cons c front ih =>
      have hstep : onChar size d c (front ++ rest) ∈ next size d := by
        rw [next, hread, hinput]
        rfl
      have hc : c ≠ 126 := fun h => hfront (h ▸ List.mem_cons_self)
      rw [wholeFrom_cons]
      by_cases hz : c = 122 → d.count % 5 = 0
      · obtain ⟨hread', hinput', hcount'⟩ :=
          onChar_read size hread hcount hc hz (front ++ rest)
        have hnext := ih hread' hinput' (by omega) fun h => hfront (List.mem_cons_of_mem _ h)
        rw [hcount'] at hnext
        constructor
        · rintro ⟨-, hwhole⟩
          obtain ⟨d', hreach, hd'⟩ := hnext.1 hwhole
          exact ⟨d', .head hstep hreach, hd'⟩
        · intro hwrong
          obtain ⟨d', hreach, hd'⟩ := hnext.2 fun hwhole => hwrong ⟨hz, hwhole⟩
          exact ⟨d', .head hstep hreach, hd'⟩
      · refine ⟨fun h => absurd h.1 hz, fun _ => ⟨_, .single hstep, ?_⟩⟩
        obtain ⟨rfl, hcount'⟩ := Classical.not_imp.mp hz
        rw [onChar, if_neg (not_isDigit85 (.inl rfl)), if_pos rfl, if_pos (by omega)]

/-! ## Behind the end mark -/

/-- A character that is not skipped ends the loop. -/
theorem skip_ends (size : Long) {d : Decoder} {c : UInt8} (hskip : d.control = .skip c)
    (h : ¬(Skipped c ∧ ∀ b ∈ d.input, Skipped b)) :
    ∃ d' ok, Reaches (next size) d d' ∧ d'.control = .returned ok := by
  have hend : ∀ {d c}, d.control = .skip c → ¬Skipped c →
      ∃ d' ok, Reaches (next size) d d' ∧ d'.control = .returned ok := by
    intro d c hskip hc
    by_cases hmark : c = 62
    · refine ⟨onEnd size d, true, .single ?_, rfl⟩
      rw [next, hskip]
      exact (if_neg hc).trans (if_pos hmark)
    · refine ⟨{ d with control := .returned false }, false, .single ?_, rfl⟩
      rw [next, hskip]
      exact (if_neg hc).trans (if_neg hmark)
  generalize hinput : d.input = input at h
  induction input generalizing d c with
  | nil => exact hend hskip fun hc => h ⟨hc, fun b hb => absurd hb List.not_mem_nil⟩
  | cons b input ih =>
      by_cases hc : Skipped c
      · have hstep : { d with control := .skip b, input } ∈ next size d := by
          rw [next, hskip, hinput]
          exact if_pos hc
        have hrest : ¬(Skipped b ∧ ∀ b ∈ input, Skipped b) := fun hrest =>
          h ⟨hc, List.forall_mem_cons.mpr hrest⟩
        obtain ⟨d', ok, hreach, hret⟩ :=
          ih (d := { d with control := .skip b, input }) rfl rfl hrest
        exact ⟨d', ok, .head hstep hreach, hret⟩
      · exact hend hskip hc

/-- Only characters that are skipped. -/
def Stuck (d : Decoder) : Prop := ∃ c, d.control = .skip c ∧ Skipped c ∧ ∀ b ∈ d.input, Skipped b

/-- At the end of the file, the character stays as it was. -/
theorem Stuck.next {size : Long} {d : Decoder} (h : Stuck d) :
    ∃ d', Ascii85.next size d = some d' ∧ Stuck d' := by
  obtain ⟨c, hskip, hc, hrest⟩ := h
  refine ⟨{ d with control := .skip (readChar c d.input).1, input := (readChar c d.input).2 },
    ?_, ?_⟩
  · rw [Ascii85.next, hskip]
    exact if_pos hc
  · refine ⟨_, rfl, ?_⟩
    cases hinput : d.input with
    | nil => exact ⟨hc, fun b hb => absurd hb List.not_mem_nil⟩
    | cons b input =>
        rw [hinput] at hrest
        exact ⟨hrest b List.mem_cons_self, fun b hb => hrest b (List.mem_cons_of_mem _ hb)⟩

theorem Stuck.reaches {size : Long} {d d' : Decoder} (h : Stuck d)
    (hreach : Reaches (Ascii85.next size) d d') : Stuck d' := by
  induction hreach with
  | refl => exact h
  | tail _ hstep ih =>
      obtain ⟨d'', hnext, hstuck⟩ := ih.next
      obtain rfl := Option.some.inj (hnext.symm.trans hstep)
      exact hstuck

/-- The loop goes on for ever. -/
theorem Stuck.not_mem_eval {size : Long} {d : Decoder} (h : Stuck d) (d' : Decoder) :
    d' ∉ eval (Ascii85.next size) d := by
  intro hend
  obtain ⟨hreach, hnone⟩ := mem_eval.mp hend
  obtain ⟨d'', hnext, -⟩ := (h.reaches hreach).next
  exact absurd (hnone.symm.trans hnext) (by simp)

/-! ## The result -/

theorem ends_of_reaches {size : Long} {input : Bytes} {d : Decoder}
    (hreach : Reaches (next size) (start input) d)
    (h : ∃ d' ok, Reaches (next size) d d' ∧ d'.control = .returned ok) : Ends size input := by
  obtain ⟨d', ok, hrest, hret⟩ := h
  exact ⟨d', ok, mem_eval.mpr ⟨hreach.trans hrest, by rw [next, hret]⟩, hret⟩

theorem endless_iff {front rest : Bytes} (hfront : 126 ∉ front) :
    Endless (front ++ 126 :: rest) ↔ Whole front ∧ rest ≠ [] ∧ ∀ c ∈ rest, Skipped c := by
  constructor
  · rintro ⟨front', blanks, heq, hfront', hwhole, hne, hblanks⟩
    have hmark : 126 ∉ blanks := fun h => absurd (hblanks 126 h) (by decide)
    obtain ⟨rfl, -, rfl⟩ := (List.append_cons_inj_of_notMem hfront' hmark).mp heq.symm
    exact ⟨hwhole, hne, hblanks⟩
  · rintro ⟨hwhole, hne, hrest⟩
    exact ⟨front, rest, rfl, hfront, hwhole, hne, hrest⟩

/-- **`Decode` ends exactly if the file is not one that has an end mark that is not complete, with
characters to skip up to the end of the file.** -/
theorem decode_ends_iff (size : Long) (input : Bytes) : Ends size input ↔ ¬Endless input := by
  by_cases hmark : 126 ∈ input
  · obtain ⟨front, rest, rfl, hfront⟩ := List.eq_append_cons_of_mem hmark
    obtain ⟨hread, herror⟩ := read_front size
      (show (start (front ++ 126 :: rest)).control = .read from rfl)
      (show (start (front ++ 126 :: rest)).input = front ++ 126 :: rest from rfl)
      (Nat.zero_lt_succ 4) hfront
    rw [endless_iff hfront, ← wholeFrom_zero]
    by_cases hwhole : WholeFrom 0 front
    · obtain ⟨d, hreach, hcontrol, hinput, -⟩ := hread hwhole
      have hskip : onChar size d 126 rest ∈ next size d := by
        rw [next, hcontrol, hinput]
        rfl
      have honChar : onChar size d 126 rest =
          { d with control := .skip (readChar 126 rest).1, input := (readChar 126 rest).2 } := by
        rw [onChar, if_neg (not_isDigit85 (.inr rfl)), if_neg (by decide), if_pos rfl]
      rw [honChar] at hskip
      have hreach' := hreach.tail hskip
      rw [and_iff_right hwhole]
      constructor
      · rintro ⟨d', ok, hend, -⟩ ⟨hne, hrest⟩
        refine Stuck.not_mem_eval ?_ d' (reaches_eval hreach' ▸ hend)
        obtain ⟨c, rest, rfl⟩ := List.exists_cons_of_ne_nil hne
        exact ⟨c, rfl, List.forall_mem_cons.mp hrest⟩
      · intro h
        refine ends_of_reaches hreach' (skip_ends size rfl ?_)
        cases rest with
        | nil => exact fun hc => absurd hc.1 (by decide)
        | cons c rest => exact fun hrest => h ⟨List.cons_ne_nil _ _, List.forall_mem_cons.mpr hrest⟩
    · -- a `z` in the middle of a group comes first
      obtain ⟨d, hreach, hret⟩ := herror hwhole
      exact iff_of_true (ends_of_reaches hreach ⟨d, false, .refl, hret⟩) fun h => hwhole h.1
  · obtain ⟨hread, herror⟩ := read_front size (show (start input).control = .read from rfl)
      (show (start input).input = input ++ [] from (List.append_nil input).symm)
      (Nat.zero_lt_succ 4) hmark
    refine iff_of_true ?_ ?_
    · by_cases hwhole : WholeFrom 0 input
      · obtain ⟨d, hreach, hcontrol, hinput, -⟩ := hread hwhole
        refine ends_of_reaches hreach ⟨{ d with control := .returned true }, true, .single ?_, rfl⟩
        rw [next, hcontrol, hinput]
        rfl
      · obtain ⟨d, hreach, hret⟩ := herror hwhole
        exact ends_of_reaches hreach ⟨d, false, .refl, hret⟩
    · rintro ⟨front, blanks, rfl, -⟩
      exact hmark (List.mem_append_right _ List.mem_cons_self)

/-- A `~` at the end of a line, and no more. -/
theorem endless_newline : ¬Ends .bits64 [126, 10] := by
  rintro ⟨d, ok, hend, -⟩
  have hfirst : next .bits64 (start [126, 10]) = some ⟨.skip 10, [], 0, 0, []⟩ := by rfl
  have hstuck : Stuck ⟨.skip 10, [], 0, 0, []⟩ :=
    ⟨10, rfl, by decide, fun b hb => absurd hb List.not_mem_nil⟩
  exact hstuck.not_mem_eval d (reaches_eval (.single hfirst) ▸ hend)

end Nsdci.Ascii85
