import Nsdci.Rpc

/-!
# Grouped integers (`misc.c`)

`GroupIntCmd` copies the text of an integer into a buffer of 15 bytes, with a separator before every
third character from the end. It counts all characters of the text, so white space and a sign count,
and it copies the text however long it is.

`group_iff` says for which texts the output fits and has its separators between digits only.
-/

namespace Nsdci.Misc

open Lib
open Rpc (isSpace)

/-! ## The command -/

/-- The size of `outbuf`. -/
def outbufSize : Nat := 15

/-- A character of a number, in any of the bases that `Tcl_GetInt` reads. -/
def XDigit (c : UInt8) : Prop := (48 ≤ c ∧ c ≤ 57) ∨ (65 ≤ c ∧ c ≤ 70) ∨ (97 ≤ c ∧ c ≤ 102)

instance (c : UInt8) : Decidable (XDigit c) := inferInstanceAs (Decidable (_ ∨ _))

/-- A text that `Tcl_GetInt` may accept: digits, perhaps behind a letter for the base, with a sign
and with white space around them. -/
def IntText (text : Bytes) : Prop :=
  ∃ front sign digits back : Bytes, text = front ++ sign ++ digits ++ back ∧
    (∀ c ∈ front, isSpace c = true) ∧ (sign = [] ∨ sign = [43] ∨ sign = [45]) ∧
    digits ≠ [] ∧ (∀ c ∈ digits, XDigit c ∨ c = 79 ∨ c = 88 ∨ c = 111 ∨ c = 120) ∧
    ∀ c ∈ back, isSpace c = true

/-- What `GroupIntCmd` returns when it does not return a text: the argument is not an integer, or it
has written behind the buffer. -/
inductive GroupError where
  | notInteger
  | overrun
  deriving DecidableEq

/-- A byte is stored behind the others. -/
def put (outbuf : Bytes) (c : UInt8) : Except GroupError Bytes :=
  if outbuf.length < outbufSize then .ok (outbuf ++ [c]) else .error .overrun

/-- The `for` loop of `GroupIntCmd`, and the NUL behind the text. -/
def groupLoop (shift x : Nat) : Bytes → Bytes → Except GroupError Bytes
  | [], outbuf => (put outbuf 0).map fun _ => outbuf
  | c :: text, outbuf => do
      let outbuf ← if x % 3 = shift ∧ x ≠ 0 then put outbuf 44 else .ok outbuf
      let outbuf ← put outbuf c
      groupLoop shift (x + 1) text outbuf

/-- `GroupIntCmd`. -/
def groupIntCmd (getInt : Bytes → Option Int) (text : Bytes) : Except GroupError Bytes :=
  match getInt text with
  | none => .error .notInteger
  | some _ => groupLoop (text.length % 3) 0 text []

/-! ## What it should do -/

/-- A grouped text: behind each separator are three digits, before the first is one at least, and
without the separators it is the text. -/
structure Grouped (text out : Bytes) : Prop where
  groups : ∀ g ∈ (out.splitOn 44).tail, g.length = 3 ∧ ∀ c ∈ g, XDigit c
  before : (out.splitOn 44).tail ≠ [] →
    ∃ c, ((out.splitOn 44).headD []).getLast? = some c ∧ XDigit c
  back : (out.splitOn 44).flatten = text

/-- The characters before the first separator. -/
def firstGroup (text : Bytes) : Nat := if text.length % 3 = 0 then 3 else text.length % 3

/-- The text is short, and where there is a separator, everything from the character before the
first is a digit. -/
def Groupable (text : Bytes) : Prop :=
  text.length ≤ 11 ∧ (3 < text.length → ∀ c ∈ text.drop (firstGroup text - 1), XDigit c)

instance (text : Bytes) : Decidable (Groupable text) :=
  letI := List.decidableBAll XDigit (text.drop (firstGroup text - 1))
  inferInstanceAs (Decidable (_ ∧ (_ → _)))

/-! ## The loop -/

/-- What the loop writes. -/
def grouped (shift : Nat) : Nat → Bytes → Bytes
  | _, [] => []
  | x, c :: text => (if x % 3 = shift ∧ x ≠ 0 then [44, c] else [c]) ++ grouped shift (x + 1) text

/-- A byte, and then what is known to be written if there is room. -/
theorem put_bind (outbuf out : Bytes) (c : UInt8) (loop : Bytes → Except GroupError Bytes)
    (hloop : ∀ outbuf, loop outbuf = if outbuf.length + out.length < outbufSize then
      .ok (outbuf ++ out) else .error .overrun) :
    (put outbuf c >>= loop) = if outbuf.length + (c :: out).length < outbufSize then
      .ok (outbuf ++ c :: out) else .error .overrun := by
  unfold put
  split_ifs with hroom htail htail
  · show loop (outbuf ++ [c]) = _
    rw [hloop, List.append_assoc]
    rw [List.length_cons] at htail
    exact if_pos (by rw [List.length_append, List.length_singleton]; omega)
  · show loop (outbuf ++ [c]) = _
    rw [hloop]
    rw [List.length_cons] at htail
    exact if_neg (by rw [List.length_append, List.length_singleton]; omega)
  · omega
  · rfl

/-- The loop writes it if there is room for it and the NUL. -/
theorem groupLoop_eq (shift x : Nat) (text outbuf : Bytes) :
    groupLoop shift x text outbuf =
      if outbuf.length + (grouped shift x text).length < outbufSize then
        .ok (outbuf ++ grouped shift x text)
      else .error .overrun := by
  induction text generalizing x outbuf with
  | nil =>
      rw [groupLoop, put, grouped, List.length_nil, Nat.add_zero, List.append_nil]
      split_ifs <;> rfl
  | cons c text ih =>
      rw [groupLoop, grouped]
      have hchar := fun outbuf => put_bind outbuf _ c _ (ih (x + 1))
      by_cases hsep : x % 3 = shift ∧ x ≠ 0
      · rw [if_pos hsep, if_pos hsep]
        exact put_bind outbuf _ 44 _ hchar
      · rw [if_neg hsep, if_neg hsep]
        exact hchar outbuf

/-! ## Where the separators are -/

/-- A text whose length is a multiple of three is made of groups. -/
theorem exists_flatten : ∀ {text : Bytes}, text.length % 3 = 0 →
    ∃ gs : List Bytes, gs.flatten = text ∧ ∀ g ∈ gs, g.length = 3
  | [], _ => ⟨[], rfl, fun g hg => absurd hg List.not_mem_nil⟩
  | [_], h => absurd h (by simp)
  | [_, _], h => absurd h (by simp)
  | a :: b :: c :: text, h => by
      have htext : text.length % 3 = 0 := by
        rw [List.length_cons, List.length_cons, List.length_cons] at h
        omega
      obtain ⟨gs, rfl, hgs⟩ := exists_flatten htext
      refine ⟨[a, b, c] :: gs, rfl, fun g hg => ?_⟩
      obtain rfl | hg := List.mem_cons.mp hg
      · rfl
      · exact hgs g hg

/-- The characters before the first separator, and the groups behind them. -/
theorem exists_groups {text : Bytes} (h : text ≠ []) :
    ∃ (front : Bytes) (gs : List Bytes), text = front ++ gs.flatten ∧
      front.length = firstGroup text ∧ ∀ g ∈ gs, g.length = 3 := by
  have hpos := List.length_pos_iff.mpr h
  have hfirst : firstGroup text ≤ text.length ∧ (text.length - firstGroup text) % 3 = 0 := by
    unfold firstGroup
    split_ifs <;> omega
  have hrest : (text.drop (firstGroup text)).length % 3 = 0 := by
    rw [List.length_drop]
    exact hfirst.2
  obtain ⟨gs, hgs, hthree⟩ := exists_flatten hrest
  refine ⟨text.take (firstGroup text), gs, ?_, List.length_take_of_le hfirst.1, hthree⟩
  rw [hgs, List.take_append_drop]

theorem length_flatten {gs : List Bytes} (h : ∀ g ∈ gs, g.length = 3) :
    gs.flatten.length = 3 * gs.length := by
  rw [List.length_flatten, List.map_eq_replicate_iff.mpr h, List.sum_replicate_nat, Nat.mul_comm]

/-- Where no separator belongs, the loop copies. -/
theorem grouped_append {shift x : Nat} {front : Bytes} (rest : Bytes)
    (h : ∀ i < front.length, ¬((x + i) % 3 = shift ∧ x + i ≠ 0)) :
    grouped shift x (front ++ rest) = front ++ grouped shift (x + front.length) rest := by
  induction front generalizing x with
  | nil => rfl
  | cons c front ih =>
      have hhead : ¬(x % 3 = shift ∧ x ≠ 0) := h 0 (Nat.succ_pos _)
      have htail : ∀ i < front.length, ¬((x + 1 + i) % 3 = shift ∧ x + 1 + i ≠ 0) := by
        intro i hi
        have hnext := h (i + 1) (Nat.succ_lt_succ hi)
        rwa [show x + (i + 1) = x + 1 + i by omega] at hnext
      rw [List.cons_append, grouped, if_neg hhead, ih htail, List.length_cons,
        show x + 1 + front.length = x + (front.length + 1) by omega]
      rfl

/-- Behind the first characters, the loop writes a separator before each group. -/
theorem grouped_flatten {shift x : Nat} {gs : List Bytes} (hgs : ∀ g ∈ gs, g.length = 3)
    (hshift : x % 3 = shift) (hx : x ≠ 0) :
    grouped shift x gs.flatten = (gs.map fun g => 44 :: g).flatten := by
  induction gs generalizing x with
  | nil => rfl
  | cons g gs ih =>
      obtain ⟨a, b, c, rfl⟩ := List.length_eq_three.mp (hgs g List.mem_cons_self)
      rw [List.flatten_cons, List.map_cons, List.flatten_cons,
        ← ih (fun g hg => hgs g (List.mem_cons_of_mem _ hg)) (show (x + 3) % 3 = shift by omega)
          (by omega)]
      show grouped shift x (a :: ([b, c] ++ gs.flatten)) = _
      rw [grouped, if_pos ⟨hshift, hx⟩, grouped_append]
      · rfl
      · intro i hi
        rw [show [b, c].length = 2 from rfl] at hi
        omega

/-- What the command writes. -/
theorem grouped_groups {front : Bytes} {gs : List Bytes} (hgs : ∀ g ∈ gs, g.length = 3)
    (hpos : 0 < front.length) (hle : front.length ≤ 3) :
    grouped ((front ++ gs.flatten).length % 3) 0 (front ++ gs.flatten) =
      front ++ (gs.map fun g => 44 :: g).flatten := by
  have hlen : (front ++ gs.flatten).length = front.length + 3 * gs.length := by
    rw [List.length_append, length_flatten hgs]
  rw [grouped_append, grouped_flatten hgs]
  · omega
  · omega
  · intro i hi
    omega

/-- At the separators, it splits into the groups again. -/
theorem splitOn_groups {front : Bytes} {gs : List Bytes} (hfront : 44 ∉ front)
    (hgs : ∀ g ∈ gs, 44 ∉ g) :
    (front ++ (gs.map fun g => 44 :: g).flatten).splitOn 44 = front :: gs := by
  induction gs generalizing front with
  | nil =>
      rw [List.map_nil, List.flatten_nil, List.append_nil]
      exact List.splitOn_eq_singleton hfront
  | cons g gs ih =>
      rw [List.map_cons, List.flatten_cons, List.cons_append,
        List.splitOn_append_cons_self_of_not_mem hfront,
        ih (hgs g List.mem_cons_self) fun g hg => hgs g (List.mem_cons_of_mem _ hg)]

theorem not_mem_of_intText {text : Bytes} (h : IntText text) : 44 ∉ text ∧ text ≠ [] := by
  obtain ⟨front, sign, digits, back, rfl, hfront, hsign, hne, hdigits, hback⟩ := h
  refine ⟨fun hmem => ?_, by simp [hne]⟩
  simp only [List.mem_append] at hmem
  obtain ((hmem | hmem) | hmem) | hmem := hmem
  · exact absurd (hfront _ hmem) (by decide)
  · obtain rfl | rfl | rfl := hsign <;> exact absurd hmem (by decide)
  · exact absurd (hdigits _ hmem) (by decide)
  · exact absurd (hback _ hmem) (by decide)

/-- The output has its separators between digits if they are between digits in the text. -/
theorem grouped_iff {front : Bytes} {c : UInt8} {gs : List Bytes} (hgs : ∀ g ∈ gs, g.length = 3)
    (hcomma : 44 ∉ front ++ [c] ++ gs.flatten) :
    Grouped (front ++ [c] ++ gs.flatten) (front ++ [c] ++ (gs.map fun g => 44 :: g).flatten) ↔
      (gs ≠ [] → ∀ d ∈ c :: gs.flatten, XDigit d) := by
  have hsplit : (front ++ [c] ++ (gs.map fun g => 44 :: g).flatten).splitOn 44 =
      (front ++ [c]) :: gs := by
    refine splitOn_groups (fun hmem => hcomma ?_) fun g hg hmem => hcomma ?_
    · exact List.mem_append_left _ hmem
    · exact List.mem_append_right _ (List.mem_flatten_of_mem hg hmem)
  constructor
  · rintro ⟨hgroups, hbefore, -⟩ hne d hd
    rw [hsplit] at hgroups hbefore
    obtain rfl | hd := List.mem_cons.mp hd
    · obtain ⟨d', hlast, hdigit⟩ := hbefore hne
      rw [List.headD_cons, List.getLast?_concat] at hlast
      rwa [Option.some.inj hlast]
    · obtain ⟨g, hg, hd⟩ := List.mem_flatten.mp hd
      exact (hgroups g hg).2 d hd
  · intro h
    refine ⟨?_, ?_, ?_⟩
    · rw [hsplit]
      intro g (hg : g ∈ gs)
      refine ⟨hgs g hg, fun d hd => h (List.ne_nil_of_mem hg) d ?_⟩
      exact List.mem_cons_of_mem _ (List.mem_flatten_of_mem hg hd)
    · rw [hsplit]
      exact fun hne => ⟨c, List.getLast?_concat, h hne c List.mem_cons_self⟩
    · rw [hsplit]
      exact List.flatten_cons

/-- The output fits if the text has at most 11 characters. -/
theorem groupIntCmd_eq {getInt : Bytes → Option Int} {text front : Bytes} {gs : List Bytes}
    {v : Int} (h : getInt text = some v) (htext : text = front ++ gs.flatten)
    (hgs : ∀ g ∈ gs, g.length = 3) (hpos : 0 < front.length) (hle : front.length ≤ 3) :
    groupIntCmd getInt text =
      if text.length ≤ 11 then .ok (front ++ (gs.map fun g => 44 :: g).flatten)
      else .error .overrun := by
  have hlen : text.length = front.length + 3 * gs.length := by
    rw [htext, List.length_append, length_flatten hgs]
  have hout : (front ++ (gs.map fun g => 44 :: g).flatten).length =
      front.length + 4 * gs.length := by
    have hfour : ∀ g ∈ gs, (List.length ∘ fun g : Bytes => 44 :: g) g = 4 :=
      fun g hg => congrArg (· + 1) (hgs g hg)
    rw [List.length_append, List.length_flatten, List.map_map,
      List.map_eq_replicate_iff.mpr hfour, List.sum_replicate_nat, Nat.mul_comm]
  unfold groupIntCmd
  rw [h]
  show groupLoop (text.length % 3) 0 text [] = _
  rw [groupLoop_eq, htext, grouped_groups hgs hpos hle, ← htext, hout, List.length_nil,
    Nat.zero_add, List.nil_append]
  -- one separator for each group, and the NUL
  refine if_congr ?_ rfl rfl
  rw [hlen, outbufSize]
  omega

/-- **Grouped integers.** The output fits its buffer and has its separators between digits, three
behind each, if and only if the text has at most 11 characters and the characters around the
separators are digits. -/
theorem group_iff (getInt : Bytes → Option Int)
    (hgetInt : ∀ text v, getInt text = some v → IntText text) (text : Bytes) {v : Int}
    (h : getInt text = some v) :
    (∃ out, groupIntCmd getInt text = .ok out ∧ Grouped text out) ↔ Groupable text := by
  obtain ⟨hcomma, hne⟩ := not_mem_of_intText (hgetInt text v h)
  obtain ⟨front, gs, htext, hfirst, hgs⟩ := exists_groups hne
  have hfront : 0 < front.length ∧ front.length ≤ 3 := by
    rw [hfirst, firstGroup]
    split_ifs <;> omega
  obtain ⟨front, c, rfl⟩ : ∃ init c, front = init ++ [c] :=
    (List.eq_nil_or_concat' front).resolve_left (List.length_pos_iff.mp hfront.1)
  have hdrop : text.drop (firstGroup text - 1) = c :: gs.flatten := by
    rw [← hfirst, List.length_append, List.length_singleton, Nat.add_sub_cancel, htext,
      List.append_assoc, List.drop_left]
    rfl
  have hmany : 3 < text.length ↔ gs ≠ [] := by
    rw [← List.length_pos_iff, htext, List.length_append, length_flatten hgs]
    omega
  rw [groupIntCmd_eq h htext hgs hfront.1 hfront.2]
  unfold Groupable
  rw [hdrop, hmany, ← grouped_iff hgs (htext ▸ hcomma), ← htext]
  constructor
  · rintro ⟨out, hok, hgrouped⟩
    split_ifs at hok with hshort
    cases hok
    exact ⟨hshort, hgrouped⟩
  · rintro ⟨hshort, hgrouped⟩
    exact ⟨_, if_pos hshort, hgrouped⟩

/-- A run of digits is such a text. -/
theorem intText_of_parseDigits {text : Bytes} {v : Int}
    (h : (parseDigits text).map Int.ofNat = some v) : IntText text := by
  obtain ⟨n, hn, -⟩ := Option.map_eq_some_iff.mp h
  unfold parseDigits at hn
  split_ifs at hn with hbad
  rw [Bool.or_eq_true, not_or, List.isEmpty_iff, Bool.not_eq_true, Bool.not_eq_false',
    List.all_eq_true] at hbad
  refine ⟨[], [], text, [], by simp, by simp, .inl rfl, hbad.1, fun c hc => ?_, by simp⟩
  have hdigit := hbad.2 c hc
  rw [Bool.and_eq_true, decide_eq_true_eq, decide_eq_true_eq] at hdigit
  refine .inl (.inl ⟨hdigit.1, ?_⟩)
  show c.toNat ≤ 57
  omega

/-- Seven digits. -/
theorem group_seven_digits :
    ∃ out, groupIntCmd (fun text => (parseDigits text).map Int.ofNat)
        [49, 50, 51, 52, 53, 54, 55] = .ok out ∧
      Grouped [49, 50, 51, 52, 53, 54, 55] out :=
  (group_iff _ (fun _ _ => intText_of_parseDigits) _ rfl).mpr (by decide)

/-- A separator behind the sign, and twelve digits that are written behind the buffer. -/
theorem group_minus :
    parseDecimal [45, 49, 50, 51] = some (-123) ∧
      groupIntCmd parseDecimal [45, 49, 50, 51] = .ok [45, 44, 49, 50, 51] ∧
      ¬Grouped [45, 49, 50, 51] [45, 44, 49, 50, 51] ∧
      parseDecimal (List.replicate 11 48 ++ [49]) = some 1 ∧
      groupIntCmd parseDecimal (List.replicate 11 48 ++ [49]) = .error .overrun := by
  refine ⟨by decide, by decide, fun h => ?_, by decide, by decide⟩
  obtain ⟨c, hlast, hdigit⟩ := h.before (by decide)
  obtain rfl : c = 45 := Option.some.inj (hlast.symm.trans (by decide))
  exact absurd hdigit (by decide)

end Nsdci.Misc
