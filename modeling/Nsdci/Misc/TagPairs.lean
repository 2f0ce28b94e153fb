import Nsdci.Misc.TagAtts

/-!
# Names and quoted values (`misc.c`)

A tag with attributes is a text of names with quoted values, with white space between them. What
`Dci_FindTagAtts` makes of it is `foundAtts`: only a blank ends an attribute before the end of the
text, white space at the ends of a value is dropped, and the search for the beginning of an empty
value goes on in the next name.

`findTagAtts_iff` says when every read is inside the buffer, and when the attributes are found.
-/

namespace Nsdci.Misc

open Lib
open Rpc (isSpace strTrim)

/-! ## Tags -/

/-- A name with its value. -/
structure Att where
  name : Bytes
  value : Bytes
  name_ne : name ≠ []
  name_plain : ∀ c ∈ name, isKeyEnd c = false ∧ c ≠ 0
  value_plain : ∀ c ∈ value, c ≠ 34 ∧ c ≠ 0

/-- `name="value"`. -/
def Att.text (a : Att) : Bytes := a.name ++ 61 :: 34 :: (a.value ++ [34])

/-- Attributes, each with the white space before it. -/
def tagText (atts : List (Bytes × Att)) : Bytes := atts.flatMap fun p => p.1 ++ p.2.text

/-- There is white space before each attribute but the first. -/
structure Apart (atts : List (Bytes × Att)) : Prop where
  white : ∀ p ∈ atts, ∀ c ∈ p.1, isSpace c = true
  apart : ∀ p ∈ atts.tail, p.1 ≠ []

/-- There is a blank before each attribute but the first, no value has white space at its ends, and
none but the last is empty. -/
structure Tidy (atts : List (Bytes × Att)) : Prop where
  blanks : ∀ p ∈ atts.tail, 32 ∈ p.1
  trimmed : ∀ p ∈ atts, strTrim p.2.value = p.2.value
  filled : ∀ p ∈ atts.dropLast, p.2.value ≠ []

/-- The value that is found before a blank: for an empty one, the text from the next name on. -/
def foundValue (a : Att) (todo : Bytes) : Bytes :=
  if a.value.all isSpace then todo else strTrim a.value

/-- What is found, when a name may still wait for its value. -/
def foundAtts : Option Bytes → Att → List (Bytes × Att) → List (Bytes × Bytes)
  | name, a, [] => [(name.getD a.name, strTrim a.value)]
  | name, a, (white, b) :: atts =>
      if 32 ∈ white then
        (name.getD a.name, foundValue a (b.text ++ tagText atts)) :: foundAtts none b atts
      else foundAtts (some (name.getD a.name)) b atts

/-! ## Trimmed values -/

theorem dropWhile_concat {p : UInt8 → Bool} {c : UInt8} (hc : p c = false) (s : Bytes) :
    (s ++ [c]).dropWhile p = s.dropWhile p ++ [c] := by
  induction s with
  | nil => exact List.dropWhile_cons_of_neg (by rw [hc]; exact Bool.false_ne_true)
  | cons b s ih =>
      rw [List.cons_append, List.dropWhile_cons, List.dropWhile_cons]
      split_ifs
      · exact ih
      · rfl

theorem strTrim_white {value : Bytes} (h : value.all isSpace = true) : strTrim value = [] := by
  rw [strTrim, List.rdropWhile_eq_nil_iff.mpr fun c hc => List.all_eq_true.mp h c hc]
  rfl

/-- A value that is not white, without the white space at its ends. -/
theorem exists_trim {value : Bytes} (h : ¬ value.all isSpace = true) :
    ∃ left right, value = left ++ (strTrim value ++ right) ∧
      (∀ c ∈ left, isSpace c = true) ∧ (∀ c ∈ right, isSpace c = true) ∧
      (∃ first rest, strTrim value = first :: rest ∧ isSpace first = false) ∧
      ∃ front last, strTrim value = front ++ [last] ∧ isSpace last = false := by
  have hne : value.rdropWhile isSpace ≠ [] := by
    intro hnil
    exact h (List.all_eq_true.mpr fun c hc => List.rdropWhile_eq_nil_iff.mp hnil c hc)
  obtain ⟨front, last, hlast⟩ := (List.eq_nil_or_concat' _).resolve_left hne
  have hspace : isSpace last = false := by
    have hnot := List.rdropWhile_last_not isSpace value hne
    simp only [hlast, List.getLast_concat] at hnot
    exact Bool.eq_false_iff.mpr hnot
  have htrim : strTrim value = front.dropWhile isSpace ++ [last] := by
    rw [strTrim, hlast, dropWhile_concat hspace]
  refine ⟨(value.rdropWhile isSpace).takeWhile isSpace, value.rtakeWhile isSpace,
    ?_, ?_, ?_, ?_, ?_⟩
  · rw [← List.append_assoc, strTrim, List.takeWhile_append_dropWhile,
      List.rdropWhile_append_rtakeWhile]
  · exact fun c hc => List.mem_takeWhile_imp hc
  · exact fun c hc => List.mem_rtakeWhile_imp hc
  · obtain ⟨first, rest, heq⟩ := List.exists_cons_of_ne_nil
      (show strTrim value ≠ [] by rw [htrim]; exact List.concat_ne_nil _ _)
    have hnot := List.head?_dropWhile_not isSpace (value.rdropWhile isSpace)
    rw [show (value.rdropWhile isSpace).dropWhile isSpace = first :: rest from heq] at hnot
    exact ⟨first, rest, heq, hnot⟩
  · exact ⟨_, last, htrim, hspace⟩

/-! ## Loops over lists -/

theorem skipOver_append {skip : UInt8 → Bool} {front : Bytes} (hfront : ∀ c ∈ front, skip c = true)
    {c : UInt8} (hc : skip c = false) (rest : Bytes) :
    skipOver skip (front ++ c :: rest) = some front.length := by
  induction front with
  | nil => exact if_neg (by rw [hc]; exact Bool.false_ne_true)
  | cons b front ih =>
      obtain ⟨hb, hfront⟩ := List.forall_mem_cons.mp hfront
      rw [List.cons_append, skipOver, if_pos hb, ih hfront]
      rfl

theorem back_append {skip : UInt8 → Bool} (front : Bytes) {c : UInt8} (hc : skip c = false)
    {skipped : Bytes} (hskipped : ∀ c ∈ skipped, skip c = true) (rest : Bytes) :
    back skip (front ++ c :: (skipped ++ rest)) (front ++ c :: skipped).length =
      some front.length := by
  induction skipped using List.reverseRecOn generalizing rest with
  | nil =>
      rw [List.length_append, List.length_singleton, back, List.getElem?_append_right le_rfl,
        Nat.sub_self]
      exact if_neg (by rw [hc]; exact Bool.false_ne_true)
  | append_singleton skipped b ih =>
      have hb : skip b = true := hskipped b (List.mem_append_right _ List.mem_cons_self)
      have hbuf : front ++ c :: (skipped ++ [b] ++ rest) =
          (front ++ c :: skipped) ++ b :: rest := by
        simp
      have hlen : (front ++ c :: (skipped ++ [b])).length = (front ++ c :: skipped).length + 1 := by
        simp
        omega
      have hget : ((front ++ c :: skipped) ++ b :: rest)[(front ++ c :: skipped).length]? =
          some b := by
        rw [List.getElem?_append_right le_rfl, Nat.sub_self]
        rfl
      have hnext := ih (fun d hd => hskipped d (List.mem_append_left _ hd)) (b :: rest)
      rw [← List.cons_append, ← List.append_assoc] at hnext
      rw [hbuf, hlen, back, hget]
      exact (if_pos hb).trans hnext

/-- The loop reads some characters. -/
def Runs (s : TagScan) (text : Bytes) (s' : TagScan) : Prop :=
  ∀ n, scanTag (n + text.length) s = scanTag n s'

theorem Runs.append {s s' s'' : TagScan} {front rest : Bytes} (hfront : Runs s front s')
    (hrest : Runs s' rest s'') : Runs s (front ++ rest) s'' := by
  intro n
  rw [List.length_append, Nat.add_comm front.length, ← Nat.add_assoc, hfront, hrest]

theorem runs_one {s s' : TagScan} {c : UInt8} (hget : s.buf[s.q]? = some c) (hc : c ≠ 0)
    (h : tagTurn s c = some s') : Runs s [c] s' := by
  intro n
  show scanTag (n + 1) s = _
  rw [scanTag, hget]
  exact (if_neg hc).trans (by rw [h]; rfl)

/-- A character that means nothing where it stands. -/
structure Neutral (s : TagScan) (c : UInt8) : Prop where
  nul : c ≠ 0
  quote : c ≠ 34
  equal : ¬(c = 61 ∧ s.inQuote = false)
  blank : ¬(c = 32 ∧ s.inQuote = false ∧ s.isKey = false)

theorem runs_neutral {s : TagScan} {done text todo : Bytes} (hbuf : s.buf = done ++ (text ++ todo))
    (hq : s.q = done.length) (h : ∀ c ∈ text, Neutral s c) :
    Runs s text { s with q := (done ++ text).length } := by
  induction text generalizing s done with
  | nil =>
      rw [List.append_nil, ← hq]
      exact fun n => rfl
  | cons c text ih =>
      obtain ⟨⟨hnul, hquote, hequal, hblank⟩, htext⟩ := List.forall_mem_cons.mp h
      have hget : s.buf[s.q]? = some c := by
        rw [hbuf, hq, List.getElem?_append_right le_rfl, Nat.sub_self]
        rfl
      have hturn : tagTurn s c = some { s with q := s.q + 1 } := by
        rw [tagTurn, onTagChar, if_neg hquote, if_neg hequal, if_neg hblank]
        rfl
      have hbuf' : s.buf = (done ++ [c]) ++ (text ++ todo) := by
        rw [hbuf, List.append_assoc]
        rfl
      have hnext := ih (s := { s with q := s.q + 1 }) hbuf' (by rw [hq, List.length_append]; rfl)
        fun b hb => ⟨(htext b hb).nul, (htext b hb).quote, (htext b hb).equal, (htext b hb).blank⟩
      rw [List.append_assoc] at hnext
      exact (runs_one hget hnul hturn).append hnext

/-! ## An attribute -/

theorem set_append (front : Bytes) (c b : UInt8) (rest : Bytes) :
    (front ++ c :: rest).set front.length b = front ++ b :: rest := by
  rw [List.set_append_right _ _ le_rfl, Nat.sub_self]
  rfl

theorem getElem?_append_cons (front : Bytes) (c : UInt8) (rest : Bytes) :
    (front ++ c :: rest)[front.length]? = some c := by
  rw [List.getElem?_append_right le_rfl, Nat.sub_self]
  rfl

/-- The name of an attribute, up to the `=`. -/
theorem runs_name {s : TagScan} {done todo : Bytes} {a : Att}
    (hbuf : s.buf = done ++ (a.name ++ 61 :: todo)) (hq : s.q = done.length)
    (hquote : s.inQuote = false) :
    Runs s (a.name ++ [61]) { s with
      buf := done ++ a.name ++ [0] ++ todo, q := (done ++ a.name ++ [0]).length,
      v := some (done ++ a.name ++ [0]).length, isKey := false } := by
  have hneutral : ∀ c ∈ a.name, Neutral s c := by
    intro c hc
    obtain ⟨hend, hnul⟩ := a.name_plain c hc
    refine ⟨hnul, ?_, fun h => ?_, fun h => ?_⟩
    · rintro rfl
      exact absurd hend (by decide)
    · exact absurd (h.1 ▸ hend) (by decide)
    · exact absurd (h.1 ▸ hend) (by decide)
  obtain ⟨front, last, hname⟩ := (List.eq_nil_or_concat' a.name).resolve_left a.name_ne
  have hlast : isKeyEnd last = false := (a.name_plain last (by rw [hname]; simp)).1
  have hback : back isKeyEnd s.buf ((done ++ a.name).length + 1) = some (done ++ front).length := by
    have hskip : ∀ c ∈ [(61 : UInt8)], isKeyEnd c = true := List.forall_mem_singleton.mpr rfl
    have hlen : (done ++ a.name).length + 1 = (done ++ front ++ last :: [61]).length := by
      rw [hname]
      simp
      omega
    have hbuf' : s.buf = done ++ front ++ last :: ([61] ++ todo) := by
      rw [hbuf, hname]
      simp
    rw [hlen, hbuf']
    exact back_append _ hlast hskip todo
  have hset : s.buf.set ((done ++ front).length + 1) 0 = done ++ a.name ++ [0] ++ todo := by
    have hlen : (done ++ front).length + 1 = (done ++ a.name).length := by
      rw [hname]
      simp
      omega
    rw [hlen, hbuf, ← List.append_assoc, set_append, List.append_assoc _ [0]]
    rfl
  refine (runs_neutral hbuf hq hneutral).append (runs_one ?_ (by decide) ?_)
  · show s.buf[(done ++ a.name).length]? = _
    rw [hbuf, ← List.append_assoc]
    exact getElem?_append_cons _ _ _
  · rw [tagTurn, onTagChar, if_neg (by decide), if_pos ⟨rfl, hquote⟩, hback]
    show some _ = some _
    have hlen : (done ++ a.name ++ [0]).length = (done ++ a.name).length + 1 := List.length_append
    rw [hset, hlen]

/-- A value in its quotes. -/
theorem runs_value {s : TagScan} {done todo : Bytes} {a : Att}
    (hbuf : s.buf = done ++ (34 :: (a.value ++ 34 :: todo))) (hq : s.q = done.length)
    (hquote : s.inQuote = false) :
    Runs s (34 :: (a.value ++ [34])) { s with
      q := (done ++ 34 :: (a.value ++ [34])).length } := by
  have hneutral : ∀ c ∈ a.value, Neutral { s with q := s.q + 1, inQuote := true } c := by
    intro c hc
    obtain ⟨hmark, hnul⟩ := a.value_plain c hc
    exact ⟨hnul, hmark, fun h => absurd h.2 (by simp), fun h => absurd h.2.1 (by simp)⟩
  have hfirst : Runs s [34] { s with q := s.q + 1, inQuote := true } := by
    refine runs_one ?_ (by decide) ?_
    · rw [hbuf, hq]
      exact getElem?_append_cons _ _ _
    · rw [tagTurn, onTagChar, if_pos rfl, hquote]
      rfl
  have hbuf' : s.buf = (done ++ [34]) ++ (a.value ++ 34 :: todo) := by
    rw [hbuf, List.append_assoc]
    rfl
  have hvalue := runs_neutral (s := { s with q := s.q + 1, inQuote := true }) hbuf'
    (by rw [hq, List.length_append]; rfl) hneutral
  refine hfirst.append (hvalue.append (runs_one ?_ (by decide) ?_))
  · show s.buf[(done ++ [34] ++ a.value).length]? = _
    rw [hbuf', ← List.append_assoc]
    exact getElem?_append_cons _ _ _
  · rw [tagTurn, onTagChar, if_pos rfl]
    simp [hquote]
    omega

/-! ## What is put -/

/-- The name that the next attribute will have is at `k`, with a NUL behind it. -/
def KeyAt (buf : Bytes) (k : Nat) (name : Bytes) : Prop :=
  ∃ front white rest, buf = front ++ (white ++ (asciz name ++ rest)) ∧ front.length = k ∧
    (∀ c ∈ white, isSpace c = true) ∧ NulFree name ∧ ∀ c ∈ name.head?, isKeyEnd c = false

theorem isTrim_of_isSpace {c : UInt8} (h : isSpace c = true) : isTrim c = true := by
  rw [isTrim, h]
  rfl

theorem isTrim_eq_false {c : UInt8} (h : isSpace c = false) (hquote : c ≠ 34) :
    isTrim c = false := by
  rw [isTrim, h]
  simp [hquote]

/-- The name is read, whatever stands behind its NUL. -/
theorem KeyAt.read {buf : Bytes} {k : Nat} {name : Bytes} (h : KeyAt buf k name) :
    ∃ n, (∀ tail, forward isTrim (buf ++ tail) k = some n) ∧
      ∀ tail, ∃ rest, readCStr ((buf ++ tail).drop n) = some (name, rest) := by
  obtain ⟨front, white, rest, rfl, rfl, hwhite, hfree, hfirst⟩ := h
  obtain ⟨first, more, hname, htrim⟩ : ∃ first more, asciz name = first :: more ∧
      isTrim first = false := by
    cases name with
    | nil => exact ⟨0, [], rfl, by decide⟩
    | cons first more =>
        have hend := hfirst first rfl
        unfold isKeyEnd at hend
        exact ⟨first, more ++ [0], rfl, (Bool.or_eq_false_iff.mp hend).1⟩
  refine ⟨front.length + white.length, fun tail => ?_, fun tail => ⟨rest ++ tail, ?_⟩⟩
  · rw [forward, List.append_assoc, List.drop_left, hname, List.append_assoc, List.append_assoc,
      List.cons_append, skipOver_append (fun c hc => isTrim_of_isSpace (hwhite c hc)) htrim]
    rfl
  · rw [← List.drop_drop, List.append_assoc, List.drop_left, List.append_assoc, List.drop_left,
      List.append_assoc]
    exact readCStr_asciz hfree _

/-- The parts of an attribute, put together. -/
theorem setPut_eq {s : TagScan} {v k' v' e : Nat} {name value : Bytes}
    (hk : forward isTrim s.buf s.k = some k') (hv : s.v = some v)
    (hv' : forward isTrim s.buf v = some v') (he : back isTrim s.buf s.q = some e)
    (hname : ∃ rest, readCStr ((s.buf.set (e + 1) 0).drop k') = some (name, rest))
    (hvalue : ∃ rest, readCStr ((s.buf.set (e + 1) 0).drop v') = some (value, rest)) :
    setPut s = some { s with set := s.set ++ [(name, value)] } := by
  obtain ⟨_, hname⟩ := hname
  obtain ⟨_, hvalue⟩ := hvalue
  simp only [setPut, hk, hv, hv', he, Option.bind_eq_bind, Option.bind_some, hname, hvalue]

/-- A value that is not white. -/
theorem setPut_filled {s : TagScan} {done value white rest name : Bytes}
    (hbuf : s.buf = done ++ 34 :: (value ++ 34 :: (white ++ rest)))
    (hq : s.q = (done ++ 34 :: (value ++ 34 :: white)).length)
    (hv : s.v = some done.length) (hkey : KeyAt done s.k name)
    (hvalue : ∀ c ∈ value, c ≠ 34 ∧ c ≠ 0) (hwhite : ∀ c ∈ white, isSpace c = true)
    (hfilled : ¬value.all isSpace = true) :
    setPut s = some { s with set := s.set ++ [(name, strTrim value)] } := by
  obtain ⟨left, right, hsplit, hleft, hright, ⟨first, more, hfirst, hspace⟩, front, last, hlast,
    hspace'⟩ := exists_trim hfilled
  obtain ⟨k', hk, hread⟩ := hkey.read
  have hplain : ∀ c ∈ strTrim value, c ≠ 34 ∧ c ≠ 0 := fun c hc =>
    hvalue c (by rw [hsplit]; simp [hc])
  have hfirst' : isTrim first = false := isTrim_eq_false hspace (hplain first (by simp [hfirst])).1
  have hlast' : isTrim last = false := isTrim_eq_false hspace' (hplain last (by simp [hlast])).1
  have hskip : ∀ c ∈ 34 :: left, isTrim c = true :=
    List.forall_mem_cons.mpr ⟨by decide, fun c hc => isTrim_of_isSpace (hleft c hc)⟩
  have hskip' : ∀ c ∈ right ++ 34 :: white, isTrim c = true := by
    intro c hc
    simp only [List.mem_append, List.mem_cons] at hc
    obtain hc | rfl | hc := hc
    · exact isTrim_of_isSpace (hright c hc)
    · decide
    · exact isTrim_of_isSpace (hwhite c hc)
  obtain ⟨b, behind, hbehind⟩ : ∃ b behind, right ++ 34 :: (white ++ rest) = b :: behind :=
    List.exists_cons_of_ne_nil (List.append_ne_nil_of_right_ne_nil right (List.cons_ne_nil _ _))
  -- the buffer, as the three loops see it
  have hbuf₁ : s.buf = done ++ ((34 :: left) ++ first :: (more ++ b :: behind)) := by
    rw [hbuf, hsplit, hfirst, ← hbehind]
    simp
  have hbuf₂ : s.buf = (done ++ 34 :: (left ++ front)) ++
      last :: ((right ++ 34 :: white) ++ rest) := by
    rw [hbuf, hsplit, hlast]
    simp
  have hbuf₃ : s.buf = (done ++ 34 :: (left ++ strTrim value)) ++ b :: behind := by
    rw [hbuf₁, hfirst]
    simp
  have hq' : s.q = ((done ++ 34 :: (left ++ front)) ++ last :: (right ++ 34 :: white)).length := by
    rw [hq, hsplit, hlast]
    simp
  have hnul : (done ++ 34 :: (left ++ front)).length + 1 =
      (done ++ 34 :: (left ++ strTrim value)).length := by
    rw [hlast]
    simp
    omega
  have hkey' : forward isTrim s.buf s.k = some k' := by
    rw [hbuf]
    exact hk _
  have hvalue' : forward isTrim s.buf done.length = some (done.length + (34 :: left).length) := by
    rw [forward, hbuf₁, List.drop_left, skipOver_append hskip hfirst']
    rfl
  have hback : back isTrim s.buf s.q = some (done ++ 34 :: (left ++ front)).length := by
    rw [hq', hbuf₂]
    exact back_append _ hlast' hskip' rest
  have hset : s.buf.set ((done ++ 34 :: (left ++ front)).length + 1) 0 =
      (done ++ 34 :: (left ++ strTrim value)) ++ 0 :: behind := by
    rw [hnul, hbuf₃, set_append]
  refine setPut_eq hkey' hv hvalue' hback ?_ ?_
  · rw [hset, List.append_assoc]
    exact hread _
  · rw [hset, ← List.drop_drop, List.append_assoc, List.drop_left, ← List.cons_append,
      List.append_assoc, List.drop_left]
    have hfree : NulFree (strTrim value) := fun h0 => (hplain 0 h0).2 rfl
    have hasciz := readCStr_asciz hfree behind
    rw [asciz, List.append_assoc] at hasciz
    exact ⟨_, hasciz⟩

/-- A white value: the search for its beginning goes on behind it. -/
theorem setPut_white {s : TagScan} {done value white skipped rest name text tail : Bytes}
    {c : UInt8}
    (hbuf : s.buf = done ++ 0 :: 34 :: (value ++ 34 :: (white ++ (skipped ++ c :: rest))))
    (hq : s.q = (done ++ 0 :: 34 :: (value ++ 34 :: white)).length)
    (hv : s.v = some (done.length + 1)) (hkey : KeyAt (done ++ [0]) s.k name)
    (hwhite : ∀ c ∈ white, isSpace c = true) (hall : value.all isSpace = true)
    (hskipped : ∀ c ∈ skipped, isTrim c = true) (hc : isTrim c = false)
    (htext : readCStr (c :: rest) = some (text, tail)) :
    setPut s = some { s with set := s.set ++ [(name, text)] } := by
  obtain ⟨k', hk, hread⟩ := hkey.read
  have hskip : ∀ b ∈ 34 :: (value ++ 34 :: white), isTrim b = true := by
    intro b hb
    simp only [List.mem_cons, List.mem_append] at hb
    obtain rfl | hb | rfl | hb := hb
    · decide
    · exact isTrim_of_isSpace (List.all_eq_true.mp hall b hb)
    · decide
    · exact isTrim_of_isSpace (hwhite b hb)
  have hbuf₁ : s.buf = (done ++ [0]) ++
      ((34 :: (value ++ 34 :: white) ++ skipped) ++ c :: rest) := by
    rw [hbuf]
    simp
  have hbuf₂ : s.buf = done ++ 0 :: (34 :: (value ++ 34 :: white) ++ (skipped ++ c :: rest)) := by
    rw [hbuf]
    simp
  have hbuf₃ : s.buf.set (done.length + 1) 0 = (done ++ [0]) ++
      ((0 :: (value ++ 34 :: white) ++ skipped) ++ c :: rest) := by
    rw [hbuf₁]
    simp
  have hskip' : ∀ b ∈ 34 :: (value ++ 34 :: white) ++ skipped, isTrim b = true := by
    intro b hb
    obtain hb | hb := List.mem_append.mp hb
    · exact hskip b hb
    · exact hskipped b hb
  have hv' : done.length + 1 = (done ++ [0]).length := by simp
  have hkey' : forward isTrim s.buf s.k = some k' := by
    rw [hbuf₁]
    exact hk _
  have hvalue' : forward isTrim s.buf (done.length + 1) =
      some ((done ++ [0]).length + (34 :: (value ++ 34 :: white) ++ skipped).length) := by
    rw [forward, hv', hbuf₁, List.drop_left, skipOver_append hskip' hc]
    rfl
  have hback : back isTrim s.buf s.q = some done.length := by
    rw [hq, hbuf₂]
    exact back_append _ (by decide) hskip _
  refine setPut_eq hkey' hv hvalue' hback ?_ ?_
  · rw [hbuf₃]
    exact hread _
  · have hlen : (34 :: (value ++ 34 :: white) ++ skipped).length =
        (0 :: (value ++ 34 :: white) ++ skipped).length := by simp
    rw [hbuf₃, hlen, ← List.drop_drop, List.drop_left, List.drop_left]
    exact ⟨_, htext⟩

/-! ## The whole text -/

/-- The scan is before a name, and perhaps one before it waits for its value. -/
structure BeforeAtt (s : TagScan) (done todo : Bytes) (name : Option Bytes) : Prop where
  buf : s.buf = done ++ todo
  q : s.q = done.length
  inQuote : s.inQuote = false
  fresh : name = none → ∃ front white, done = front ++ white ∧ front.length = s.k ∧
    ∀ c ∈ white, isSpace c = true
  waiting : ∀ n ∈ name, KeyAt done s.k n

/-- The scan is behind a value. -/
structure AfterAtt (s : TagScan) (done value todo name : Bytes) : Prop where
  buf : s.buf = done ++ 0 :: 34 :: (value ++ 34 :: todo)
  q : s.q = (done ++ 0 :: 34 :: (value ++ [34])).length
  v : s.v = some (done.length + 1)
  key : KeyAt (done ++ [0]) s.k name
  isKey : s.isKey = false
  inQuote : s.inQuote = false

theorem KeyAt.append {buf : Bytes} {k : Nat} {name : Bytes} (h : KeyAt buf k name) (tail : Bytes) :
    KeyAt (buf ++ tail) k name := by
  obtain ⟨front, white, rest, rfl, hlen, hwhite, hname⟩ := h
  exact ⟨front, white, rest ++ tail, by simp, hlen, hwhite, hname⟩

theorem Att.nulFree_name (a : Att) : NulFree a.name :=
  fun h0 => (a.name_plain 0 h0).2 rfl

/-- An attribute. -/
theorem BeforeAtt.runs {s : TagScan} {done todo : Bytes} {name : Option Bytes} {a : Att}
    (h : BeforeAtt s done (a.text ++ todo) name) :
    ∃ s', Runs s a.text s' ∧ AfterAtt s' (done ++ a.name) a.value todo (name.getD a.name) ∧
      s'.set = s.set := by
  have hbuf : s.buf = done ++ (a.name ++ 61 :: 34 :: (a.value ++ 34 :: todo)) := by
    rw [h.buf, Att.text]
    simp
  have hname := runs_name hbuf h.q h.inQuote
  have hvalue := runs_value (s := { s with
    buf := done ++ a.name ++ [0] ++ 34 :: (a.value ++ 34 :: todo)
    q := (done ++ a.name ++ [0]).length, v := some (done ++ a.name ++ [0]).length
    isKey := false }) rfl rfl h.inQuote
  refine ⟨{ s with
    buf := done ++ a.name ++ [0] ++ 34 :: (a.value ++ 34 :: todo)
    q := (done ++ a.name ++ [0] ++ 34 :: (a.value ++ [34])).length
    v := some (done ++ a.name ++ [0]).length, isKey := false },
    ?_, ⟨?_, ?_, ?_, ?_, rfl, h.inQuote⟩, rfl⟩
  · have hruns := hname.append hvalue
    rwa [List.append_assoc] at hruns
  · simp
  · simp
  · exact congrArg some (by rw [List.length_append]; rfl)
  · show KeyAt (done ++ a.name ++ [0]) s.k _
    cases name with
    | none =>
        obtain ⟨front, white, rfl, hlen, hwhite⟩ := h.fresh rfl
        refine ⟨front, white, [], by simp [asciz], hlen, hwhite, a.nulFree_name, fun c hc => ?_⟩
        exact (a.name_plain c (List.mem_of_mem_head? hc)).1
    | some n =>
        rw [List.append_assoc]
        exact (h.waiting n rfl).append _

/-- White space with no blank. -/
theorem neutral_white {s : TagScan} {c : UInt8} (hc : isSpace c = true)
    (hblank : ¬(c = 32 ∧ s.inQuote = false ∧ s.isKey = false)) : Neutral s c := by
  refine ⟨?_, ?_, fun h => ?_, hblank⟩
  · rintro rfl
    exact absurd hc (by decide)
  · rintro rfl
    exact absurd hc (by decide)
  · exact absurd (h.1 ▸ hc) (by decide)

/-- White space with no blank behind a value: the name goes on waiting. -/
theorem AfterAtt.runs_waiting {s : TagScan} {done value white todo name : Bytes}
    (h : AfterAtt s done value (white ++ todo) name) (hwhite : ∀ c ∈ white, isSpace c = true)
    (hblank : 32 ∉ white) :
    ∃ s', Runs s white s' ∧ s'.set = s.set ∧
      BeforeAtt s' (done ++ 0 :: 34 :: (value ++ 34 :: white)) todo (some name) := by
  have hbuf : s.buf = (done ++ 0 :: 34 :: (value ++ [34])) ++ (white ++ todo) := by
    rw [h.buf]
    simp
  have hruns := runs_neutral hbuf h.q fun c hc =>
    neutral_white (hwhite c hc) fun hc' => hblank (hc'.1 ▸ hc)
  refine ⟨_, hruns, rfl, ?_, ?_, h.inQuote, fun hnone => absurd hnone (by simp), ?_⟩
  · rw [hbuf]
    simp
  · simp
  · rintro n hn
    obtain rfl := Option.some.inj hn
    have hkey := h.key.append (34 :: (value ++ 34 :: white))
    rwa [List.append_assoc] at hkey

/-- An attribute is put, with white space behind its value. -/
theorem AfterAtt.setPut {s : TagScan} {done value white skipped rest name text tail : Bytes}
    {c : UInt8} (h : AfterAtt s done value (white ++ (skipped ++ c :: rest)) name)
    (hvalue : ∀ c ∈ value, c ≠ 34 ∧ c ≠ 0) (hwhite : ∀ c ∈ white, isSpace c = true)
    (hskipped : ∀ c ∈ skipped, isTrim c = true) (hc : isTrim c = false)
    (htext : readCStr (c :: rest) = some (text, tail)) {q : Nat}
    (hq : q = (done ++ 0 :: 34 :: (value ++ 34 :: white)).length) :
    Misc.setPut { s with q } = some { s with
      q, set := s.set ++ [(name, if value.all isSpace then text else strTrim value)] } := by
  split_ifs with hall
  · exact setPut_white (s := { s with q }) h.buf hq h.v h.key hwhite hall hskipped hc htext
  · have hbuf : s.buf =
        (done ++ [0]) ++ 34 :: (value ++ 34 :: (white ++ (skipped ++ c :: rest))) := by
      rw [h.buf]
      simp
    refine setPut_filled (s := { s with q }) hbuf ?_ ?_ h.key hvalue hwhite hall
    · rw [hq]
      simp
    · rw [List.length_append]
      exact h.v

/-- A blank behind a value, with white space around it: the attribute is put. -/
theorem AfterAtt.runs_put {s : TagScan} {done value front back rest name text tail : Bytes}
    {c : UInt8} (h : AfterAtt s done value (front ++ 32 :: (back ++ c :: rest)) name)
    (hvalue : ∀ c ∈ value, c ≠ 34 ∧ c ≠ 0) (hfront : ∀ c ∈ front, isSpace c = true)
    (hblank : 32 ∉ front) (hback : ∀ c ∈ back, isSpace c = true) (hc : isTrim c = false)
    (htext : readCStr (c :: rest) = some (text, tail)) :
    ∃ s', Runs s (front ++ 32 :: back) s' ∧
      s'.set = s.set ++ [(name, if value.all isSpace then text else strTrim value)] ∧
      BeforeAtt s' (done ++ 0 :: 34 :: (value ++ 34 :: (front ++ 32 :: back))) (c :: rest)
        none := by
  obtain ⟨D, hD⟩ : ∃ D, D = done ++ 0 :: 34 :: (value ++ [34]) := ⟨_, rfl⟩
  have hbuf : s.buf = D ++ (front ++ 32 :: (back ++ c :: rest)) := by
    rw [h.buf, hD]
    simp
  have hq : s.q = D.length := hD ▸ h.q
  have hfirst := runs_neutral hbuf hq fun c hc =>
    neutral_white (hfront c hc) fun hc' => hblank (hc'.1 ▸ hc)
  have hskipped : ∀ b ∈ 32 :: back, isTrim b = true :=
    List.forall_mem_cons.mpr ⟨by decide, fun b hb => isTrim_of_isSpace (hback b hb)⟩
  have hafter : AfterAtt s done value (front ++ ((32 :: back) ++ c :: rest)) name := h
  have hput := hafter.setPut hvalue hfront hskipped hc htext (q := (D ++ front).length)
    (by rw [hD]; simp)
  obtain ⟨att, hatt⟩ : ∃ att, att = (name, if value.all isSpace then text else strTrim value) :=
    ⟨_, rfl⟩
  rw [← hatt] at hput ⊢
  have hblank' : Runs { s with q := (D ++ front).length } [32] { s with
      q := (D ++ front).length + 1, k := (D ++ front).length, v := none, isKey := true
      set := s.set ++ [att] } := by
    refine runs_one ?_ (by decide) ?_
    · show s.buf[(D ++ front).length]? = _
      rw [hbuf, ← List.append_assoc]
      exact getElem?_append_cons _ _ _
    · rw [tagTurn, onTagChar, if_neg (by decide), if_neg (fun hc => absurd hc.1 (by decide)),
        if_pos ⟨rfl, h.inQuote, h.isKey⟩, hput]
      rfl
  have hbuf' : s.buf = (D ++ front ++ [32]) ++ (back ++ c :: rest) := by
    rw [hbuf]
    simp
  have hlen : (D ++ front).length + 1 = (D ++ front ++ [32]).length := by
    simp only [List.length_append, List.length_singleton]
  have hlast := runs_neutral (s := { s with
      q := (D ++ front).length + 1, k := (D ++ front).length, v := none, isKey := true
      set := s.set ++ [att] }) hbuf' hlen fun c hc =>
    neutral_white (hback c hc) fun hc' => absurd hc'.2.2 (by simp)
  refine ⟨_, hfirst.append (hblank'.append hlast), rfl, ?_, ?_, h.inQuote, fun _ => ?_, fun n hn =>
    absurd hn (by simp)⟩
  · rw [hbuf', hD]
    simp
  · rw [hD]
    simp
  · refine ⟨D ++ front, 32 :: back, by rw [hD]; simp, rfl, ?_⟩
    exact List.forall_mem_cons.mpr ⟨by decide, hback⟩

/-- The text ends with the value. -/
theorem AfterAtt.setPut_end {s : TagScan} {done value name : Bytes}
    (h : AfterAtt s done value [0] name) (hvalue : ∀ c ∈ value, c ≠ 34 ∧ c ≠ 0) :
    (Misc.setPut s).map TagScan.set = some (s.set ++ [(name, strTrim value)]) := by
  have hafter : AfterAtt s done value (([] : Bytes) ++ (([] : Bytes) ++ [0])) name := h
  have hnone : ∀ (p : UInt8 → Prop), ∀ c ∈ ([] : Bytes), p c := fun _ c hc =>
    absurd hc List.not_mem_nil
  have hput := hafter.setPut hvalue (hnone _) (hnone _) (by decide)
    (show readCStr [0] = some ([], []) from rfl) h.q
  have hsame : (if value.all isSpace then [] else strTrim value) = strTrim value := by
    split_ifs with hall
    · exact (strTrim_white hall).symm
    · rfl
  rw [hsame] at hput
  exact congrArg _ hput

theorem nulFree_tagText {atts : List (Bytes × Att)}
    (hwhite : ∀ p ∈ atts, ∀ c ∈ p.1, isSpace c = true) : NulFree (tagText atts) := by
  intro h0
  obtain ⟨p, hp, h0⟩ := List.mem_flatMap.mp h0
  simp only [Att.text, List.mem_append, List.mem_cons, List.not_mem_nil, or_false] at h0
  obtain h0 | h0 | h0 | h0 | h0 | h0 := h0
  · exact absurd (hwhite p hp 0 h0) (by decide)
  · exact p.2.nulFree_name h0
  · exact absurd h0 (by decide)
  · exact absurd h0 (by decide)
  · exact (p.2.value_plain 0 h0).2 rfl
  · exact absurd h0 (by decide)

/-- The text from a name on is read as a string. -/
theorem exists_text (a : Att) {atts : List (Bytes × Att)}
    (hwhite : ∀ p ∈ atts, ∀ c ∈ p.1, isSpace c = true) :
    ∃ c rest, a.text ++ (tagText atts ++ [0]) = c :: rest ∧ isTrim c = false ∧
      readCStr (c :: rest) = some (a.text ++ tagText atts, []) := by
  obtain ⟨c, more, hname⟩ := List.exists_cons_of_ne_nil a.name_ne
  have hend := (a.name_plain c (by rw [hname]; exact List.mem_cons_self)).1
  unfold isKeyEnd at hend
  have hfree : NulFree (a.text ++ tagText atts) := by
    have hall : NulFree (tagText (([], a) :: atts)) :=
      nulFree_tagText (List.forall_mem_cons.mpr ⟨fun c hc => absurd hc List.not_mem_nil, hwhite⟩)
    rwa [tagText, List.flatMap_cons, List.nil_append] at hall
  have hread := readCStr_asciz hfree []
  rw [asciz, List.append_nil, List.append_assoc, Att.text, hname] at hread
  refine ⟨c, more ++ 61 :: 34 :: (a.value ++ [34]) ++ (tagText atts ++ [0]), ?_,
    (Bool.or_eq_false_iff.mp hend).1, ?_⟩
  · rw [Att.text, hname]
    rfl
  · rw [Att.text, hname]
    exact hread

/-- **What the loop finds.** -/
theorem BeforeAtt.found {s : TagScan} {done : Bytes} {name : Option Bytes} {a : Att}
    {atts : List (Bytes × Att)} (h : BeforeAtt s done (a.text ++ (tagText atts ++ [0])) name)
    (hwhite : ∀ p ∈ atts, ∀ c ∈ p.1, isSpace c = true) :
    ∃ s' done' value name', Runs s (a.text ++ tagText atts) s' ∧ AfterAtt s' done' value [0] name' ∧
      (Misc.setPut s').map TagScan.set = some (s.set ++ foundAtts name a atts) := by
  induction atts generalizing s done name a with
  | nil =>
      obtain ⟨s', hruns, hafter, hset⟩ := h.runs
      refine ⟨s', _, _, _, ?_, hafter, ?_⟩
      · rw [tagText, List.flatMap_nil, List.append_nil]
        exact hruns
      · rw [hafter.setPut_end a.value_plain, hset]
        rfl
  | cons p atts ih =>
      obtain ⟨white, b⟩ := p
      obtain ⟨hw, hatts⟩ := List.forall_mem_cons.mp hwhite
      obtain ⟨s₁, hruns, hafter, hset⟩ := h.runs
      have htext : tagText ((white, b) :: atts) = white ++ (b.text ++ tagText atts) := by
        rw [tagText, List.flatMap_cons, List.append_assoc]
        rfl
      have hbuf : white ++ (b.text ++ tagText atts) ++ [0] =
          white ++ (b.text ++ (tagText atts ++ [0])) := by simp
      rw [htext, hbuf] at hafter
      rw [htext, foundAtts]
      by_cases hblank : 32 ∈ white
      · obtain ⟨front, back, rfl, hfront⟩ := List.eq_append_cons_of_mem hblank
        obtain ⟨c, rest, hrest, hc, hread⟩ := exists_text b hatts
        have hwfront : ∀ c ∈ front, isSpace c = true := fun c hc =>
          hw c (List.mem_append_left _ hc)
        have hwback : ∀ c ∈ back, isSpace c = true := fun c hc =>
          hw c (List.mem_append_right _ (List.mem_cons_of_mem _ hc))
        rw [hrest, List.append_assoc, List.cons_append] at hafter
        obtain ⟨s₂, hruns₂, hset₂, hbefore⟩ :=
          hafter.runs_put a.value_plain hwfront hfront hwback hc hread
        rw [← hrest] at hbefore
        obtain ⟨s', done', value, name', hruns', hafter', hfound⟩ := ih hbefore hatts
        refine ⟨s', done', value, name', hruns.append (hruns₂.append hruns'), hafter', ?_⟩
        rw [hfound, hset₂, hset, if_pos hblank, List.append_assoc]
        rfl
      · obtain ⟨s₂, hruns₂, hset₂, hbefore⟩ := hafter.runs_waiting hw hblank
        obtain ⟨s', done', value, name', hruns', hafter', hfound⟩ := ih hbefore hatts
        refine ⟨s', done', value, name', hruns.append (hruns₂.append hruns'), hafter', ?_⟩
        rw [hfound, hset₂, hset, if_neg hblank]

/-- **What the function finds.** -/
theorem findTagAtts_tagText {white : Bytes} {a : Att} {atts : List (Bytes × Att)}
    (h : ∀ p ∈ (white, a) :: atts, ∀ c ∈ p.1, isSpace c = true) :
    findTagAtts (tagText ((white, a) :: atts)) = some (foundAtts none a atts) := by
  obtain ⟨hwhite, hatts⟩ := List.forall_mem_cons.mp h
  have hfree := nulFree_tagText h
  have htext : tagText ((white, a) :: atts) = white ++ (a.text ++ tagText atts) := by
    rw [tagText, List.flatMap_cons, List.append_assoc]
    rfl
  rw [htext] at hfree ⊢
  have hne : ¬(white ++ (a.text ++ tagText atts)).length = 0 := by
    simp [Att.text]
  have hbuf : tagBuf (white ++ (a.text ++ tagText atts)) =
      white ++ (a.text ++ (tagText atts ++ [0])) := by
    rw [tagBuf, cstr_eq_self hfree, Nat.add_sub_cancel_left]
    simp
  obtain ⟨s, hs⟩ : ∃ s : TagScan, s = ⟨tagBuf (white ++ (a.text ++ tagText atts)), 0, 0, none, true,
    false, []⟩ := ⟨_, rfl⟩
  have hsbuf : s.buf = [] ++ (white ++ (a.text ++ (tagText atts ++ [0]))) := by
    rw [hs]
    exact hbuf
  have hfirst := runs_neutral hsbuf (by rw [hs]; rfl) fun c hc =>
    neutral_white (hwhite c hc) fun hc' => absurd hc'.2.2 (by rw [hs]; simp)
  have hbefore : BeforeAtt { s with q := ([] ++ white).length } white
      (a.text ++ (tagText atts ++ [0])) none := by
    refine ⟨hsbuf, rfl, by rw [hs], fun _ => ⟨[], white, rfl, by rw [hs]; rfl, hwhite⟩, fun n hn =>
      absurd hn (by simp)⟩
  obtain ⟨s', done, value, name, hruns, hafter, hfound⟩ := hbefore.found hatts
  have hlast : scanTag 1 s' = some s' := by
    have hget : s'.buf[s'.q]? = some 0 := by
      have hsplit : s'.buf = (done ++ 0 :: 34 :: (value ++ [34])) ++ [0] := by
        rw [hafter.buf]
        simp
      rw [hsplit, hafter.q]
      exact getElem?_append_cons _ 0 []
    rw [scanTag, hget]
    rfl
  have hscan : scanTag (tagBuf (white ++ (a.text ++ tagText atts))).length s = some s' := by
    have hlen : (tagBuf (white ++ (a.text ++ tagText atts))).length =
        1 + (white ++ (a.text ++ tagText atts)).length := by
      rw [hbuf]
      simp
      omega
    rw [hlen, hfirst.append hruns 1, hlast]
  rw [findTagAtts, if_neg hne, ← hs, hscan]
  show (if _ then _ else _) = _
  rw [if_pos ⟨by rw [hafter.v]; simp, hafter.inQuote, hafter.isKey⟩, hfound, hs]
  rfl

/-! ## Tidy attributes -/

/-- What the attributes are. -/
def attPair (p : Bytes × Att) : Bytes × Bytes := (p.2.name, p.2.value)

theorem length_foundAtts (name : Option Bytes) (a : Att) (atts : List (Bytes × Att)) :
    (foundAtts name a atts).length ≤ atts.length + 1 := by
  induction atts generalizing name a with
  | nil => exact le_rfl
  | cons p atts ih =>
      rw [foundAtts, List.length_cons]
      split_ifs
      · rw [List.length_cons]
        exact Nat.succ_le_succ (ih none p.2)
      · exact Nat.le_succ_of_le (ih _ p.2)

theorem foundValue_iff (a b : Att) (todo : Bytes) :
    foundValue a (b.text ++ todo) = a.value ↔ strTrim a.value = a.value ∧ a.value ≠ [] := by
  unfold foundValue
  split_ifs with hall
  · refine iff_of_false (fun heq => ?_) fun h => h.2 (h.1 ▸ strTrim_white hall)
    -- a name does not begin with white space
    obtain ⟨c, more, hname⟩ := List.exists_cons_of_ne_nil b.name_ne
    have hc : c ∈ a.value := by
      rw [← heq, Att.text, hname]
      exact List.mem_append_left _ (List.mem_append_left _ List.mem_cons_self)
    have hspace := List.all_eq_true.mp hall c hc
    have hend := (b.name_plain c (by rw [hname]; exact List.mem_cons_self)).1
    rw [isKeyEnd, hspace] at hend
    exact absurd hend (by simp)
  · refine (and_iff_left ?_).symm
    rintro hnil
    exact hall (by rw [hnil]; rfl)

theorem tidy_cons (white : Bytes) (a : Att) (p : Bytes × Att) (atts : List (Bytes × Att)) :
    Tidy ((white, a) :: p :: atts) ↔
      32 ∈ p.1 ∧ (strTrim a.value = a.value ∧ a.value ≠ []) ∧ Tidy (p :: atts) := by
  constructor
  · rintro ⟨hblanks, htrimmed, hfilled⟩
    obtain ⟨hblank, hblanks⟩ := List.forall_mem_cons.mp hblanks
    obtain ⟨htrim, htrimmed⟩ := List.forall_mem_cons.mp htrimmed
    rw [List.dropLast_cons_of_ne_nil (List.cons_ne_nil p atts)] at hfilled
    obtain ⟨hfill, hfilled⟩ := List.forall_mem_cons.mp hfilled
    exact ⟨hblank, ⟨htrim, hfill⟩, hblanks, htrimmed, hfilled⟩
  · rintro ⟨hblank, ⟨htrim, hfill⟩, hblanks, htrimmed, hfilled⟩
    refine ⟨List.forall_mem_cons.mpr ⟨hblank, hblanks⟩,
      List.forall_mem_cons.mpr ⟨htrim, htrimmed⟩, ?_⟩
    rw [List.dropLast_cons_of_ne_nil (List.cons_ne_nil p atts)]
    exact List.forall_mem_cons.mpr ⟨hfill, hfilled⟩

theorem foundAtts_iff (white : Bytes) (a : Att) (atts : List (Bytes × Att)) :
    foundAtts none a atts = ((white, a) :: atts).map attPair ↔ Tidy ((white, a) :: atts) := by
  induction atts generalizing white a with
  | nil =>
      have hone : Tidy [(white, a)] ↔ strTrim a.value = a.value := by
        refine ⟨fun h => h.trimmed _ List.mem_cons_self, fun h => ⟨fun p hp => ?_, fun p hp => ?_,
          fun p hp => ?_⟩⟩
        · exact absurd hp List.not_mem_nil
        · obtain rfl := List.mem_singleton.mp hp
          exact h
        · exact absurd hp List.not_mem_nil
      rw [hone, foundAtts]
      simp [attPair]
  | cons p atts ih =>
      obtain ⟨white', b⟩ := p
      rw [tidy_cons, foundAtts]
      by_cases hblank : 32 ∈ white'
      · rw [if_pos hblank, List.map_cons, List.cons.injEq, ih white' b, and_iff_right hblank,
          ← foundValue_iff a b (tagText atts)]
        simp [attPair]
      · rw [if_neg hblank]
        refine iff_of_false (fun heq => ?_) fun h => hblank h.1
        have hlen := length_foundAtts (some (Option.none.getD a.name)) b atts
        rw [heq] at hlen
        simp at hlen

/-- **Attributes of a tag.** Every read is inside the buffer exactly if no `=` that is not quoted
stands before the first character of a name; and names with quoted values are found exactly if there
is a blank before each but the first, no value has white space at its ends, and none but the last is
empty. -/
theorem findTagAtts_iff (text : Bytes) {atts : List (Bytes × Att)} (h : Apart atts) :
    ((findTagAtts text).isSome ↔ Named false [] (cstr text)) ∧
      (findTagAtts (tagText atts) = some (atts.map attPair) ↔ Tidy atts) := by
  refine ⟨isSome_findTagAtts text, ?_⟩
  cases atts with
  | nil =>
      exact iff_of_true rfl ⟨fun p hp => absurd hp List.not_mem_nil,
        fun p hp => absurd hp List.not_mem_nil, fun p hp => absurd hp List.not_mem_nil⟩
  | cons p atts =>
      obtain ⟨white, a⟩ := p
      rw [findTagAtts_tagText h.white, Option.some.injEq, foundAtts_iff]

/-- `a="1"`. -/
def attOne : Att where
  name := [97]
  value := [49]
  name_ne := List.cons_ne_nil _ _
  name_plain := List.forall_mem_singleton.mpr (by decide)
  value_plain := List.forall_mem_singleton.mpr (by decide)

/-- `b=""`. -/
def attEmpty : Att where
  name := [98]
  value := []
  name_ne := List.cons_ne_nil _ _
  name_plain := List.forall_mem_singleton.mpr (by decide)
  value_plain := fun _ hc => absurd hc List.not_mem_nil

/-- `a="1" b=""` is found. -/
theorem findTagAtts_two :
    Apart [([], attOne), ([32], attEmpty)] ∧
      ((findTagAtts [97]).isSome ↔ Named false [] (cstr [97])) ∧
      (findTagAtts (tagText [([], attOne), ([32], attEmpty)]) =
          some ([([], attOne), ([32], attEmpty)].map attPair) ↔
        Tidy [([], attOne), ([32], attEmpty)]) := by
  have h : Apart [([], attOne), ([32], attEmpty)] := by
    refine ⟨List.forall_mem_cons.mpr ⟨fun c hc => ?_, List.forall_mem_singleton.mpr ?_⟩,
      List.forall_mem_singleton.mpr (List.cons_ne_nil _ _)⟩
    · exact absurd hc List.not_mem_nil
    · exact List.forall_mem_singleton.mpr rfl
  exact ⟨h, findTagAtts_iff [97] h⟩

/-- `=x` is read before its beginning; the value of `b=""` in `b="" a="1"` is not found, and nor is
`a` in `b=""`, a tab, `a="1"`. -/
theorem findTagAtts_wrong :
    ¬((∀ text, (findTagAtts text).isSome) ∧
      ∀ atts, Apart atts → findTagAtts (tagText atts) = some (atts.map attPair)) ∧
    ¬(findTagAtts [61, 120]).isSome ∧
    findTagAtts (tagText [([], attEmpty), ([32], attOne)]) ≠
      some ([([], attEmpty), ([32], attOne)].map attPair) ∧
    findTagAtts (tagText [([], attOne), ([9], attOne)]) ≠
      some ([([], attOne), ([9], attOne)].map attPair) := by
  have hread : ¬(findTagAtts [61, 120]).isSome := by decide
  exact ⟨fun h => hread (h.1 _), hread, by decide, by decide⟩

end Nsdci.Misc
