import Nsdci.Lib.CString
import Nsdci.Lib.Word

/-!
# String tables

A table of strings is a row of words with their lengths, and the strings with their terminators one
behind another. A reader turns the lengths into places: each string begins where the one before it
ends.

`stringAt_pointers` is the round trip. `place_le` bounds the places of a reader that takes other
words for lengths: if it reads the right strings at growing places, it reads none behind its own
place.
-/

namespace Nsdci.Lib

/-! ## Words -/

/-- Words in network byte order. -/
def words (ws : List Nat) : Bytes := ws.flatMap fun w : Nat => be32 w

/-- The word at an offset. -/
def wordAt (bs : Bytes) (off : Nat) : Option Nat :=
  if off + 4 ≤ bs.length then some (ofBe32 ((bs.drop off).take 4)) else none

@[simp] theorem length_words (ws : List Nat) : (words ws).length = 4 * ws.length := by
  induction ws with
  | nil => rfl
  | cons w ws ih =>
      show (be32 w ++ words ws).length = _
      rw [List.length_append, length_be32, ih, List.length_cons]
      ring

theorem words_append (ws ws' : List Nat) : words (ws ++ ws') = words ws ++ words ws' := by
  unfold words
  exact List.flatMap_append

/-- A stored word is read back. -/
theorem wordAt_append (pre post : Bytes) {w : Nat} (hw : w < 2 ^ 32) :
    wordAt (pre ++ be32 w ++ post) pre.length = some w := by
  have hfits : pre.length + 4 ≤ (pre ++ be32 w ++ post).length := by simp
  rw [wordAt, if_pos hfits, List.append_assoc, List.drop_left, ← length_be32 w, List.take_left,
    ofBe32_be32_natCast hw]

/-- The words of a table are read back. -/
theorem wordAt_words (pre post : Bytes) {ws : List Nat} (hws : ∀ w ∈ ws, w < 2 ^ 32) {k : Nat}
    (hk : k < ws.length) :
    wordAt (pre ++ words ws ++ post) (pre.length + 4 * k) = ws[k]? := by
  have hsplit : words ws = words (ws.take k) ++ be32 ws[k] ++ words (ws.drop (k + 1)) := by
    conv_lhs => rw [← List.take_append_drop k ws, List.drop_eq_getElem_cons hk]
    rw [words_append, List.append_assoc]
    rfl
  have hlen : pre.length + 4 * k = (pre ++ words (ws.take k)).length := by
    rw [List.length_append, length_words, List.length_take, min_eq_left hk.le]
  have heq : pre ++ words ws ++ post =
      (pre ++ words (ws.take k)) ++ be32 ws[k] ++ (words (ws.drop (k + 1)) ++ post) := by
    rw [hsplit]
    simp only [List.append_assoc]
  rw [hlen, heq, wordAt_append _ _ (hws _ (List.getElem_mem hk)), List.getElem?_eq_getElem hk]

/-- A word is in the bytes. -/
theorem wordAt_fits {bs : Bytes} {off w : Nat} (h : wordAt bs off = some w) :
    off + 4 ≤ bs.length := by
  unfold wordAt at h
  split_ifs at h with hfits
  exact hfits

/-- A word does not depend on what is behind it. -/
theorem wordAt_append_left {s : Bytes} {off : Nat} (h : off + 4 ≤ s.length) (rest : Bytes) :
    wordAt (s ++ rest) off = some (ofBe32 ((s.drop off).take 4)) := by
  have hdrop : 4 ≤ (s.drop off).length := by
    rw [List.length_drop]
    omega
  rw [wordAt, if_pos (by rw [List.length_append]; omega), List.drop_append_of_le_length (by omega),
    List.take_append_of_le_length hdrop]

/-- A word is as large as its first byte says. -/
theorem wordAt_head {bs : Bytes} {off w : Nat} {b : UInt8} (h : wordAt bs off = some w)
    (hb : bs[off]? = some b) : b.toNat * 2 ^ 24 ≤ w ∧ w < (b.toNat + 1) * 2 ^ 24 := by
  have hfits := wordAt_fits h
  rw [wordAt, if_pos hfits] at h
  obtain ⟨a, as, has⟩ : ∃ a as, bs.drop off = a :: as := by
    refine List.exists_cons_of_length_pos ?_
    rw [List.length_drop]
    omega
  have hhead : a = b := by
    have hzero := congrArg (·[0]?) has
    simpa [hb] using hzero.symm
  have hlen : (as.take 3).length = 3 := by
    have hdrop := congrArg List.length has
    rw [List.length_drop, List.length_cons] at hdrop
    rw [List.length_take]
    omega
  rw [has, hhead, List.take_succ_cons] at h
  match as.take 3, hlen, h with
  | [c, d, e], _, h =>
      have hw : b.toNat * 16777216 + c.toNat * 65536 + d.toNat * 256 + e.toNat = w :=
        Option.some.inj h
      have hc := c.toNat_lt
      have hd := d.toNat_lt
      have he := e.toNat_lt
      omega

/-! ## Strings -/

/-- The string at an offset. -/
def stringAt (bs : Bytes) (off : Nat) : Option Bytes := (readCStr (bs.drop off)).map Prod.fst

/-- Strings with their terminators. -/
def strings (ss : List CStr) : Bytes := ss.flatMap fun s => asciz s.1

/-- The lengths of strings with their terminators. -/
def lengths (ss : List CStr) : List Nat := ss.map fun s => s.1.length + 1

/-- The places of strings with these lengths, the first at `p`. -/
def pointers (p : Nat) : List Nat → List Nat
  | [] => []
  | len :: lens => p :: pointers (p + len) lens

theorem strings_append (ss ss' : List CStr) : strings (ss ++ ss') = strings ss ++ strings ss' := by
  unfold strings
  exact List.flatMap_append

theorem strings_cons (s : CStr) (ss : List CStr) :
    strings (s :: ss) = asciz s.1 ++ strings ss := rfl

@[simp] theorem length_strings (ss : List CStr) : (strings ss).length = (lengths ss).sum := by
  induction ss with
  | nil => rfl
  | cons s ss ih =>
      show (asciz s.1 ++ strings ss).length = s.1.length + 1 + (lengths ss).sum
      rw [List.length_append, ih, asciz, List.length_append, List.length_singleton]

@[simp] theorem length_pointers (p : Nat) (lens : List Nat) :
    (pointers p lens).length = lens.length := by
  induction lens generalizing p with
  | nil => rfl
  | cons len lens ih => rw [pointers, List.length_cons, ih, List.length_cons]

/-- A place is behind the strings before it. -/
theorem getElem?_pointers {p i : Nat} {lens : List Nat} (hi : i < lens.length) :
    (pointers p lens)[i]? = some (p + (lens.take i).sum) := by
  induction lens generalizing p i with
  | nil => exact absurd hi (Nat.not_lt_zero i)
  | cons len lens ih =>
      cases i with
      | zero => rfl
      | succ i =>
          rw [pointers, List.getElem?_cons_succ, ih (Nat.lt_of_succ_lt_succ hi),
            List.take_succ_cons, List.sum_cons, Nat.add_assoc]

/-- Reading inside a stored string gives the rest of it. -/
theorem stringAt_inside (pre post : Bytes) (s : CStr) {t : Nat} (ht : t ≤ s.1.length) :
    stringAt (pre ++ asciz s.1 ++ post) (pre.length + t) = some (s.1.drop t) := by
  have hfree : NulFree (s.1.drop t) := fun h => s.2 (List.mem_of_mem_drop h)
  have hdrop : (pre ++ asciz s.1 ++ post).drop (pre.length + t) = asciz (s.1.drop t) ++ post := by
    have hpre : pre.drop (pre.length + t) = [] := List.drop_of_length_le (Nat.le_add_right _ _)
    rw [List.append_assoc, List.drop_append, hpre, Nat.add_sub_cancel_left, List.nil_append, asciz,
      List.append_assoc, List.drop_append_of_le_length ht, asciz, List.append_assoc]
  rw [stringAt, hdrop, readCStr_asciz hfree]
  rfl

/-- A stored string is read back. -/
theorem stringAt_append (pre post : Bytes) (s : CStr) :
    stringAt (pre ++ asciz s.1 ++ post) pre.length = some s.1 :=
  stringAt_inside pre post s (Nat.zero_le _)

/-- **The strings of a table are read back at their places.** -/
theorem stringAt_pointers (pre post : Bytes) (ss : List CStr) :
    (pointers pre.length (lengths ss)).map (stringAt (pre ++ strings ss ++ post)) =
      ss.map fun s => some s.1 := by
  induction ss generalizing pre with
  | nil => rfl
  | cons s ss ih =>
      have hsplit : pre ++ strings (s :: ss) ++ post =
          pre ++ asciz s.1 ++ (strings ss ++ post) := by
        show pre ++ (asciz s.1 ++ strings ss) ++ post = _
        simp only [List.append_assoc]
      have hnext : pre.length + (s.1.length + 1) = (pre ++ asciz s.1).length := by
        rw [List.length_append, asciz, List.length_append, List.length_singleton]
      show stringAt _ pre.length ::
        (pointers (pre.length + (s.1.length + 1)) (lengths ss)).map _ = _
      rw [hsplit, stringAt_append, hnext, ← List.append_assoc, ih (pre ++ asciz s.1)]
      rfl

/-- A string ends where the bytes do at the latest. -/
theorem stringAt_fits {bs s : Bytes} {off : Nat} (h : stringAt bs off = some s) :
    off + (s.length + 1) ≤ bs.length := by
  obtain ⟨⟨s', rest⟩, hread, rfl⟩ := Option.map_eq_some_iff.mp h
  have hlen := congrArg List.length (nulFree_of_readCStr hread).2
  rw [List.length_drop, List.length_append, asciz, List.length_append,
    List.length_singleton] at hlen
  dsimp only
  omega

/-- A string of a table, what is before it and what is behind it. -/
theorem strings_split (pre : Bytes) {ss : List CStr} {i : Nat} (hi : i < ss.length) :
    ∃ front back, pre ++ strings ss = front ++ asciz ss[i].1 ++ back ∧
      front.length = pre.length + ((lengths ss).take i).sum ∧
      (i + 1 = ss.length → back = []) := by
  refine ⟨pre ++ strings (ss.take i), strings (ss.drop (i + 1)), ?_, ?_, fun hlast => ?_⟩
  · conv_lhs => rw [← List.take_append_drop i ss, List.drop_eq_getElem_cons hi]
    rw [strings_append, strings_cons]
    simp only [List.append_assoc]
  · rw [List.length_append, length_strings, lengths, lengths, List.map_take]
  · rw [hlast, List.drop_length]
    rfl

/-- **Strings read at growing places, with nothing behind the last, are read at their own places or
before.** -/
theorem place_le {bs pre : Bytes} {ss : List CStr} {place : Nat → Nat} {start : Nat}
    (hbs : bs = pre ++ strings ss)
    (hread : ∀ i s, start ≤ i → ss[i]? = some s → stringAt bs (place i) = some s.1)
    (hgrow : ∀ i, start ≤ i → i + 1 < ss.length → place i < place (i + 1)) {i : Nat}
    (hstart : start ≤ i) (hi : i < ss.length) :
    place i ≤ pre.length + ((lengths ss).take i).sum := by
  -- by induction from the last string to the first
  obtain ⟨d, hd⟩ : ∃ d, i + d + 1 = ss.length := ⟨ss.length - i - 1, by omega⟩
  induction d generalizing i with
  | zero =>
      obtain ⟨front, back, hsplit, hfront, hlast⟩ := strings_split pre hi
      have hown := stringAt_fits (hread i ss[i] hstart (List.getElem?_eq_getElem hi))
      rw [hbs, hsplit, hlast hd, List.append_nil, List.length_append, hfront, asciz,
        List.length_append, List.length_singleton] at hown
      omega
  | succ d ih =>
      obtain ⟨front, back, hsplit, hfront, -⟩ := strings_split pre hi
      have hown := hread i ss[i] hstart (List.getElem?_eq_getElem hi)
      have hnext : place (i + 1) ≤ pre.length + ((lengths ss).take (i + 1)).sum :=
        ih (by omega) (by omega) (by omega)
      have hlt := hgrow i hstart (by omega)
      have hin : i < (lengths ss).length := by simpa [lengths] using hi
      have hlen : (lengths ss)[i] = ss[i].1.length + 1 := by simp [lengths]
      rw [List.take_succ_eq_append_getElem hin, List.sum_append, hlen,
        List.sum_singleton] at hnext
      by_contra hbehind
      -- behind its place, only an end of the string can be read
      obtain ⟨t, ht⟩ : ∃ t, place i = front.length + (t + 1) :=
        ⟨place i - front.length - 1, by omega⟩
      rw [hbs, hsplit, ht, stringAt_inside front back ss[i] (by omega)] at hown
      have hshort := congrArg List.length (Option.some.inj hown)
      rw [List.length_drop] at hshort
      omega

end Nsdci.Lib
