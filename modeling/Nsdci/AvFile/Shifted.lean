import Nsdci.AvFile.RoundTrip

/-!
# A reader that begins before the lengths

A reader that begins 8 bytes before the table of the writer takes the last bytes of the text for
the number of strings: more than 2 ^ 27. Then it takes a zero and the number of the writer for the
first lengths, and two strings in a row must be as long as the number of strings for it to find
them. So the strings would be longer than the file (`not_found_shifted`).
-/

namespace Nsdci.AvFile

open Lib

variable {env : Env} {junk : Nat → UInt8} {file : CStr} {metaPtr dataPtr : List Pair}

/-! ## What is found -/

@[simp] theorem length_listv (list : List Pair) : (listv list).length = 2 * list.length := by
  induction list with
  | nil => rfl
  | cons e list ih =>
      show (listv list).length + 1 + 1 = 2 * (list.length + 1)
      omega

/-- The strings of elements are at the pointers that the elements were made of. -/
theorem strings_of_pairs {map : Bytes} {list : List Pair} {ps : List Nat}
    (h : (elems ps).map (pairAt map) = list.map fun e => some (e.1.1, e.2.1)) :
    ps.length / 2 = list.length ∧
      ∀ (i : Nat) (s : CStr), (listv list)[i]? = some s →
        ∃ p, ps[i]? = some p ∧ stringAt map p = some s.1 := by
  induction list generalizing ps with
  | nil =>
      refine ⟨?_, fun i s hs => by simp [listv] at hs⟩
      match ps, h with
      | [], _ => rfl
      | [_], _ => exact Nat.div_eq_of_lt one_lt_two
      | _ :: _ :: _, h => exact absurd h (by simp [elems])
  | cons e list ih =>
      match ps, h with
      | [], h => exact absurd h (by simp [elems])
      | [_], h => exact absurd h (by simp [elems])
      | key :: value :: ps, h =>
          obtain ⟨hpair, hrest⟩ := List.cons_eq_cons.mp h
          obtain ⟨hhalf, hstrings⟩ := ih hrest
          obtain ⟨k, hk, hpair⟩ := Option.bind_eq_some_iff.mp hpair
          obtain ⟨v, hv, heq⟩ := Option.map_eq_some_iff.mp hpair
          obtain ⟨rfl, rfl⟩ := Prod.mk.inj heq
          refine ⟨by simp only [List.length_cons]; omega, fun i s hs => ?_⟩
          -- the key, the value, and the elements behind them
          match i, hs with
          | 0, hs =>
              obtain rfl := Option.some.inj hs
              exact ⟨key, rfl, hk⟩
          | 1, hs =>
              obtain rfl := Option.some.inj hs
              exact ⟨value, rfl, hv⟩
          | i + 2, hs => exact hstrings i s hs

/-- What the reader found at the offset of the lengths when it read the strings of the two lists. -/
structure Found (env : Env) (map : Bytes) (metav : Nat) (metaPtr dataPtr : List Pair)
    (metaw listw : Nat) (metas datas : List Nat) : Prop where
  metaw_eq : wordAt map metav = some metaw
  metac_gt : -2 < int32 metaw
  listw_eq : ntohlAt env.host map (metav + 4 * (int32 metaw + 1)) = some listw
  sizeof_le : 0 < int32 metaw → env.sizeofAv ≤ metav
  metas_eq : lengthsAt env.host map metav (int32 metaw).toNat = some metas
  datas_eq : lengthsAt env.host map (metav + 4 * (int32 metaw + 1)) (int32 listw).toNat = some datas
  meta_half : metas.length / 2 = metaPtr.length
  data_half : datas.length / 2 = dataPtr.length
  meta_string : ∀ (i : Nat) (s : CStr), (listv metaPtr)[i]? = some s →
    stringAt map ((metav + 4 * (int32 metaw + 1) + 4 * (int32 listw + 1) : Int).toNat +
      (metas.take i).sum) = some s.1
  data_string : ∀ (i : Nat) (s : CStr), (listv dataPtr)[i]? = some s →
    stringAt map ((metav + 4 * (int32 metaw + 1) + 4 * (int32 listw + 1) : Int).toNat + metas.sum +
      (datas.take i).sum) = some s.1

/-- A loaded file that yields the lists was found to have their strings. -/
theorem exists_found {map : Bytes} {p : Nat} (hp : findHdrEnd map = some p)
    (h : RoundTrip env map metaPtr dataPtr) :
    ∃ metaw listw metas datas,
      Found env map ((p / 8 + 1) * 8) metaPtr dataPtr metaw listw metas datas := by
  obtain ⟨av, hav, hmeta, hdata⟩ := h
  rw [avGet_eq_some_iff hp] at hav
  obtain ⟨metaw, listw, metas, datas, hmetaw, hmetac, hlistw, -, hover, -, hmetas, hdatas⟩ := hav
  obtain ⟨hmetaHalf, hmetaString⟩ := strings_of_pairs hmeta.pairs_eq
  obtain ⟨hdataHalf, hdataString⟩ := strings_of_pairs hdata.pairs_eq
  rw [length_pointers] at hmetaHalf hdataHalf
  have hplace : ∀ {start i p : Nat} {ls : List Nat}, (pointers start ls)[i]? = some p →
      p = start + (ls.take i).sum := by
    intro start i p ls hi
    have hlt := (List.getElem?_eq_some_iff.mp hi).1
    rw [length_pointers] at hlt
    rw [getElem?_pointers hlt] at hi
    exact (Option.some.inj hi).symm
  refine ⟨metaw, listw, metas, datas, hmetaw, hmetac, hlistw, hover, hmetas, hdatas, hmetaHalf,
    hdataHalf, fun i s hs => ?_, fun i s hs => ?_⟩
  · obtain ⟨p, hpi, hps⟩ := hmetaString i s hs
    exact hplace hpi ▸ hps
  · obtain ⟨p, hpi, hps⟩ := hdataString i s hs
    exact hplace hpi ▸ hps

/-! ## A table that is read 8 bytes too early -/

/-- The words that the writer makes: the numbers of strings and their lengths. -/
def tableWords (metaPtr dataPtr : List Pair) : List Nat :=
  (listv metaPtr).length :: lengths (listv metaPtr) ++
    (listv dataPtr).length :: lengths (listv dataPtr)

theorem length_tableWords (metaPtr dataPtr : List Pair) :
    (tableWords metaPtr dataPtr).length =
      (listv metaPtr).length + 1 + ((listv dataPtr).length + 1) := by
  simp [tableWords, lengths]
  omega

/-- The words are in the file. -/
theorem wordAt_table (hlen : fileLength env file metaPtr dataPtr < 2 ^ 31) (junk : Nat → UInt8)
    {k : Nat} (hk : k < (tableWords metaPtr dataPtr).length) :
    wordAt (written env junk file metaPtr dataPtr) (hdrLength env file metaPtr dataPtr + 4 * k) =
      (tableWords metaPtr dataPtr)[k]? := by
  rw [length_tableWords] at hk
  have hlengths : ((listv metaPtr).length :: lengths (listv metaPtr)).length =
      (listv metaPtr).length + 1 := by simp [lengths]
  rcases Nat.lt_or_ge k ((listv metaPtr).length + 1) with hmeta | hdata
  · rw [wordAt_meta hlen junk (by omega), tableWords, List.getElem?_append_left (hlengths ▸ hmeta)]
  · obtain ⟨j, rfl⟩ := Nat.exists_eq_add_of_le hdata
    rw [tableWords, List.getElem?_append_right (by omega), hlengths, Nat.add_sub_cancel_left,
      ← wordAt_data hlen junk (by omega)]
    congr 1
    ring

/-- Only the numbers of strings can be zero. -/
theorem tableWords_pos {k w : Nat} (hk : (tableWords metaPtr dataPtr)[k]? = some w)
    (hmeta : k ≠ 0) (hdata : k = (listv metaPtr).length + 1 → 0 < (listv dataPtr).length) :
    0 < w := by
  have hlengths : ∀ {ss : List CStr} {w : Nat}, w ∈ lengths ss → 0 < w := by
    intro ss w hw
    obtain ⟨s, -, rfl⟩ := List.mem_map.mp hw
    exact Nat.succ_pos _
  obtain ⟨k, rfl⟩ := Nat.exists_eq_succ_of_ne_zero hmeta
  rw [tableWords, List.cons_append, List.getElem?_cons_succ] at hk
  rcases Nat.lt_or_ge k (lengths (listv metaPtr)).length with hlt | hge
  · rw [List.getElem?_append_left hlt] at hk
    exact hlengths (List.mem_of_getElem? hk)
  · rw [List.getElem?_append_right hge] at hk
    have hlen : (lengths (listv metaPtr)).length = (listv metaPtr).length := List.length_map _
    cases hj : k - (lengths (listv metaPtr)).length with
    | zero =>
        rw [hj] at hk
        obtain rfl := Option.some.inj hk
        exact hdata (by omega)
    | succ j =>
        rw [hj, List.getElem?_cons_succ] at hk
        exact hlengths (List.mem_of_getElem? hk)

/-- What grows by `c` in two steps grows by `j * c` in `2 * j` steps. -/
theorem mul_le_of_two_steps {X : Nat → Nat} {c n : Nat}
    (hstep : ∀ k, k + 2 < n → X k + c ≤ X (k + 2)) {j : Nat} (hj : 2 * j < n) :
    j * c ≤ X (2 * j) := by
  induction j with
  | zero => omega
  | succ j ih =>
      have hbefore := ih (by omega)
      have hnext := hstep (2 * j) (by omega)
      rw [Nat.succ_mul]
      exact le_trans (by omega) hnext

/-- The words are less than the length of the file. -/
theorem tableWords_lt (hlen : fileLength env file metaPtr dataPtr < 2 ^ 31) :
    ∀ w ∈ tableWords metaPtr dataPtr, w < 2 ^ 31 := by
  unfold fileLength at hlen
  intro w hw
  rcases List.mem_append.mp hw with hw | hw
  · exact words_lt (n := 2 ^ 31) (by omega) w hw
  · exact words_lt (n := 2 ^ 31) (by omega) w hw

/-- The strings are at the end of the file. -/
theorem written_strings (hlen : fileLength env file metaPtr dataPtr < 2 ^ 31) (junk : Nat → UInt8) :
    written env junk file metaPtr dataPtr =
      appendHdr env junk file metaPtr dataPtr ++ table metaPtr ++ table dataPtr ++
        strings (listv metaPtr ++ listv dataPtr) := by
  rw [written_eq hlen, strings_append]
  simp only [List.append_assoc]

section Shifted

variable {metav metaw listw : Nat} {metas datas : List Nat}
  (hlen : fileLength env file metaPtr dataPtr < 2 ^ 31)
  (hbegin : hdrLength env file metaPtr dataPtr = metav + 8)
  (hmetaw : 2 ≤ metaw ∧ metaw % 2 = 0 ∧ metaw < 2 ^ 31)
  (hfound : Found env (written env junk file metaPtr dataPtr) metav metaPtr dataPtr metaw listw
    metas datas)

include hmetaw hfound in
/-- The number of strings is the one that the reader took for it. -/
theorem length_of_found : (listv metaPtr).length = metaw ∧ metas.length = metaw := by
  have hmetas := (lengthsAt_eq_some_iff.mp hfound.metas_eq).1
  have hhalf := hfound.meta_half
  rw [int32_natCast_eq_iff.mpr hmetaw.2.2, Int.toNat_natCast] at hmetas
  rw [length_listv]
  omega

include hlen hbegin hmetaw hfound

/-- The reader's words for the meta data are a zero and the first of the writer. -/
theorem metas_of_found
    (hzero : wordAt (written env junk file metaPtr dataPtr) (metav + 4) = some 0) :
    metas = 0 :: (tableWords metaPtr dataPtr).take (metaw - 1) := by
  obtain ⟨hmeta, hmetasLen⟩ := length_of_found hmetaw hfound
  have hmetas := (lengthsAt_eq_some_iff.mp hfound.metas_eq).2
  rw [int32_natCast_eq_iff.mpr hmetaw.2.2, Int.toNat_natCast] at hmetas
  have htable := length_tableWords metaPtr dataPtr
  refine List.ext_getElem? fun k => ?_
  rcases Nat.lt_or_ge k metaw with hlt | hge
  · rw [← hmetas k hlt]
    cases k with
    | zero => exact hzero
    | succ k =>
        have hoff : metav + 4 * (k + 1 + 1) = hdrLength env file metaPtr dataPtr + 4 * k := by omega
        rw [hoff, wordAt_table hlen junk (by omega), List.getElem?_cons_succ,
          List.getElem?_take_of_lt (by omega)]
  · rw [List.getElem?_eq_none (by omega), List.getElem?_eq_none]
    rw [List.length_cons, List.length_take]
    omega

/-- The reader's number of data strings is a length, and its words for them are the next. -/
theorem datas_of_found : listw < 2 ^ 31 ∧ datas.length = listw ∧ (listv dataPtr).length ≤ listw ∧
    ∀ k < listw, datas[k]? = (tableWords metaPtr dataPtr)[metaw + k]? := by
  obtain ⟨hmeta, -⟩ := length_of_found hmetaw hfound
  have htable := length_tableWords metaPtr dataPtr
  have hoff : (metav + 4 * (int32 metaw + 1) : Int) =
      (hdrLength env file metaPtr dataPtr + 4 * (metaw - 1) : Nat) := by
    rw [int32_natCast_eq_iff.mpr hmetaw.2.2]
    omega
  have hlist := hfound.listw_eq
  rw [hoff, ntohlAt_eq _ _ (by omega), Int.toNat_natCast,
    wordAt_table hlen junk (by omega)] at hlist
  have hsmall : listw < 2 ^ 31 := tableWords_lt hlen _ (List.mem_of_getElem? hlist)
  have hdatas := hfound.datas_eq
  rw [hoff, int32_natCast_eq_iff.mpr hsmall, Int.toNat_natCast, lengthsAt_eq_some_iff] at hdatas
  have hhalf := hfound.data_half
  have hd := length_listv dataPtr
  refine ⟨hsmall, hdatas.1, by omega, fun k hk => ?_⟩
  have hnext : hdrLength env file metaPtr dataPtr + 4 * (metaw - 1) + 4 * (k + 1) =
      hdrLength env file metaPtr dataPtr + 4 * (metaw + k) := by omega
  rw [← hdatas.2 k hk, hnext]
  exact wordAt_table hlen junk (by omega)

/-- The reader's words grow the places from the third on. -/
theorem words_pos_of_found
    (hzero : wordAt (written env junk file metaPtr dataPtr) (metav + 4) = some 0) {i : Nat}
    (hi : 2 ≤ i) (hlt : i + 1 < metaw + (listv dataPtr).length) :
    ∃ w, (metas ++ datas)[i]? = some w ∧ 0 < w := by
  obtain ⟨hmeta, hmetasLen⟩ := length_of_found hmetaw hfound
  obtain ⟨-, hdatasLen, hdata, hdatas⟩ := datas_of_found hlen hbegin hmetaw hfound
  have hmetas := metas_of_found hlen hbegin hmetaw hfound hzero
  have hin : i < (metas ++ datas).length := by
    rw [List.length_append]
    omega
  refine ⟨_, List.getElem?_eq_getElem hin, ?_⟩
  rcases Nat.lt_or_ge i metaw with hfirst | hge
  · obtain ⟨k, rfl⟩ := Nat.exists_eq_add_of_le' (Nat.one_le_of_lt hi)
    refine @tableWords_pos metaPtr dataPtr k _ ?_ (by omega) (by omega)
    rw [← List.getElem?_eq_getElem hin, List.getElem?_append_left (by omega), hmetas,
      List.getElem?_cons_succ, List.getElem?_take_of_lt (by omega)]
  · obtain ⟨j, rfl⟩ := Nat.exists_eq_add_of_le hge
    refine @tableWords_pos metaPtr dataPtr (metaw + j) _ ?_ (by omega) (by omega)
    rw [← List.getElem?_eq_getElem hin, List.getElem?_append_right (by omega), hmetasLen,
      Nat.add_sub_cancel_left, hdatas j (by omega)]

/-- The reader's words begin with a zero, the number of strings and the lengths of the writer. -/
theorem take_of_found
    (hzero : wordAt (written env junk file metaPtr dataPtr) (metav + 4) = some 0) {k : Nat}
    (hk : k + 2 < metaw) :
    (metas ++ datas).take (k + 2) = 0 :: metaw :: (lengths (listv metaPtr)).take k := by
  obtain ⟨hmeta, hmetasLen⟩ := length_of_found hmetaw hfound
  have hlengths : (lengths (listv metaPtr)).length = metaw := by
    rw [lengths, List.length_map, hmeta]
  rw [List.take_append_of_le_length (by omega),
    metas_of_found hlen hbegin hmetaw hfound hzero, List.take_succ_cons, List.take_take,
    min_eq_left (by omega), tableWords, List.cons_append, List.take_succ_cons, hmeta,
    List.take_append_of_le_length (by omega)]

/-- **A reader that begins 8 bytes before a long table does not read the strings.** -/
theorem not_found_shifted
    (hzero : wordAt (written env junk file metaPtr dataPtr) (metav + 4) = some 0)
    (hbig : 2 ^ 27 + 8 ≤ metaw) : False := by
  obtain ⟨hmeta, hmetasLen⟩ := length_of_found hmetaw hfound
  obtain ⟨hlistw, -, hdata, -⟩ := datas_of_found hlen hbegin hmetaw hfound
  -- where the reader takes the first string to be
  obtain ⟨start, hstart⟩ : ∃ start, start = metav + 4 * (metaw + 1) + 4 * (listw + 1) := ⟨_, rfl⟩
  have hstr : (metav + 4 * (int32 metaw + 1) + 4 * (int32 listw + 1) : Int).toNat = start := by
    rw [int32_natCast_eq_iff.mpr hmetaw.2.2, int32_natCast_eq_iff.mpr hlistw]
    omega
  have hread : ∀ i s, 2 ≤ i → (listv metaPtr ++ listv dataPtr)[i]? = some s →
      stringAt (written env junk file metaPtr dataPtr)
        (start + ((metas ++ datas).take i).sum) = some s.1 := by
    intro i s _ hs
    rcases Nat.lt_or_ge i metaw with hlt | hge
    · rw [List.getElem?_append_left (hmeta ▸ hlt)] at hs
      rw [List.take_append_of_le_length (by omega), ← hstr]
      exact hfound.meta_string i s hs
    · obtain ⟨j, rfl⟩ := Nat.exists_eq_add_of_le hge
      rw [List.getElem?_append_right (by omega), hmeta, Nat.add_sub_cancel_left] at hs
      rw [← hmetasLen, List.take_length_add_append, List.sum_append, ← Nat.add_assoc, ← hstr]
      exact hfound.data_string j s hs
  have hgrow : ∀ i, 2 ≤ i → i + 1 < (listv metaPtr ++ listv dataPtr).length →
      start + ((metas ++ datas).take i).sum < start + ((metas ++ datas).take (i + 1)).sum := by
    intro i hi hlt
    rw [List.length_append, hmeta] at hlt
    obtain ⟨w, hw, hpos⟩ := words_pos_of_found hlen hbegin hmetaw hfound hzero hi hlt
    rw [List.take_add_one, hw, List.sum_append]
    exact Nat.add_lt_add_left (Nat.lt_add_of_pos_right (by simpa using hpos)) start
  -- so two strings are at least as long as the number of strings, up to 8
  have hplace : ∀ k, k + 2 < metaw →
      ((lengths (listv metaPtr)).take k).sum + (metaw - 8) ≤
        ((lengths (listv metaPtr)).take (k + 2)).sum := by
    intro k hk
    have hle := place_le (written_strings hlen junk) hread hgrow (i := k + 2) (by omega)
      (by rw [List.length_append]; omega)
    have hlengths : (lengths (listv metaPtr ++ listv dataPtr)).take (k + 2) =
        (lengths (listv metaPtr)).take (k + 2) := by
      rw [lengths, List.map_append, List.take_append_of_le_length]
      · rfl
      · rw [List.length_map]
        omega
    have hpre : (appendHdr env junk file metaPtr dataPtr ++ table metaPtr ++ table dataPtr).length =
        metav + 8 + 4 * (metaw + 1) + 4 * ((listv dataPtr).length + 1) := by
      simp only [List.length_append, length_appendHdr, table, length_words, List.length_cons,
        lengths, List.length_map]
      omega
    rw [take_of_found hlen hbegin hmetaw hfound hzero hk, hlengths, hpre, List.sum_cons,
      List.sum_cons] at hle
    omega
  have hlong := mul_le_of_two_steps hplace (j := 16) (by omega)
  have hshort := List.Sublist.sum_le_sum (List.take_sublist (2 * 16) (lengths (listv metaPtr)))
    (fun _ _ => Nat.zero_le _)
  unfold fileLength at hlen
  omega

end Shifted

end Nsdci.AvFile
