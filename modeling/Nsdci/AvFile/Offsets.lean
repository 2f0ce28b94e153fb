import Nsdci.AvFile.Shifted

/-!
# Where the reader begins

The writer pads from the length of the text, or from the size of an `Av`, the reader from the
newline that begins the end mark. Without an end mark in a name both begin at the lengths
(`Aligned`), or the reader begins before them: in the padding (`AtPadding`), where it finds two
empty lists, at the last bytes of the text, or below the size of an `Av`, in what was in memory.
-/

namespace Nsdci.AvFile

open Lib

variable {env : Env} {junk : Nat → UInt8} {file : CStr} {metaPtr dataPtr : List Pair}

/-- A multiple of 8 is where the padding begins, and the reader begins there. -/
def AtPadding (env : Env) (file : CStr) (metaPtr dataPtr : List Pair) : Prop :=
  max (textLength env file metaPtr dataPtr) env.sizeofAv % 8 = 0 ∧
    max (textLength env file metaPtr dataPtr) env.sizeofAv < textLength env file metaPtr dataPtr + 6

/-- Where the reader begins when the first end mark is the one at the end of the text. -/
def readerStart (env : Env) (file : CStr) (metaPtr dataPtr : List Pair) : Nat :=
  ((textLength env file metaPtr dataPtr - 3) / 8 + 1) * 8

/-- The text is at least an end mark, at its end. -/
theorem exists_text (env : Env) (file : CStr) (metaPtr dataPtr : List Pair) :
    ∃ top, headerText env file metaPtr dataPtr = top ++ [10] ++ [12] ++ [10] := by
  obtain ⟨z, -, -, heq⟩ := headerText_eq env file metaPtr dataPtr
  refine ⟨headerTop env file metaPtr.length dataPtr.length ++ z, ?_⟩
  rw [heq]
  simp [hdrEnd]

/-- The file begins with the text, what was in memory up to the size of an `Av`, and zeros. -/
theorem exists_rest (hlen : fileLength env file metaPtr dataPtr < 2 ^ 31) (junk : Nat → UInt8) :
    ∃ rest, written env junk file metaPtr dataPtr = headerText env file metaPtr dataPtr ++
      (List.range (env.sizeofAv - textLength env file metaPtr dataPtr)).map junk ++
      List.replicate (hdrLength env file metaPtr dataPtr -
        max (textLength env file metaPtr dataPtr) env.sizeofAv) 0 ++ rest := by
  refine ⟨table metaPtr ++ table dataPtr ++ strings (listv metaPtr ++ listv dataPtr), ?_⟩
  rw [written_strings hlen, appendHdr_eq]
  simp only [textLength, List.append_assoc]

/-- A word in the bytes, and a zero behind it. -/
theorem wordAt_zero {bs pre post : Bytes} {w : Nat} (hw : w < 2 ^ 32)
    (h : bs = pre ++ be32 w ++ be32 0 ++ post) :
    wordAt bs pre.length = some w ∧ wordAt bs (pre.length + 4) = some 0 := by
  constructor
  · rw [h, List.append_assoc _ (be32 0)]
    exact wordAt_append _ _ hw
  · have hlen : pre.length + 4 = (pre ++ be32 w).length := by rw [List.length_append, length_be32]
    rw [h, hlen]
    exact wordAt_append (pre ++ be32 w) post (w := 0) (by omega)

/-- **A reader that does not begin at the lengths begins 8 bytes before them, and finds the padding,
or the last bytes of the text and then the padding.** -/
theorem early_words (hlen : fileLength env file metaPtr dataPtr < 2 ^ 31) (junk : Nat → UInt8)
    (hmis : ¬ Aligned env file metaPtr dataPtr)
    (hover : env.sizeofAv ≤ readerStart env file metaPtr dataPtr) :
    hdrLength env file metaPtr dataPtr = readerStart env file metaPtr dataPtr + 8 ∧
      wordAt (written env junk file metaPtr dataPtr) (readerStart env file metaPtr dataPtr + 4) =
        some 0 ∧
      ∃ metaw, wordAt (written env junk file metaPtr dataPtr)
          (readerStart env file metaPtr dataPtr) = some metaw ∧
        (metaw = 0 ∧ AtPadding env file metaPtr dataPtr ∨
          (metaw = 167772160 ∨ metaw = 201981952) ∧ ¬ AtPadding env file metaPtr dataPtr) := by
  obtain ⟨top, htop⟩ := exists_text env file metaPtr dataPtr
  have htext : (headerText env file metaPtr dataPtr).length =
      textLength env file metaPtr dataPtr := rfl
  have hn : textLength env file metaPtr dataPtr = top.length + 3 := by
    rw [textLength, htop]
    simp
  obtain ⟨rest, hrest⟩ := exists_rest hlen junk
  have hbegin : hdrLength env file metaPtr dataPtr =
      (max (textLength env file metaPtr dataPtr) env.sizeofAv / 8 + 1) * 8 := rfl
  unfold Aligned at hmis
  unfold readerStart at hover ⊢
  unfold AtPadding
  rw [hbegin] at hrest ⊢
  generalize textLength env file metaPtr dataPtr = n at *
  have hcases : max n env.sizeofAv = ((n - 3) / 8 + 1) * 8 ∨
      env.sizeofAv ≤ n ∧ n = ((n - 3) / 8 + 1) * 8 + 1 ∨
      env.sizeofAv ≤ n ∧ n = ((n - 3) / 8 + 1) * 8 + 2 := by omega
  refine ⟨by omega, ?_⟩
  have hzeros : ∀ k, List.replicate (k + 4) (0 : UInt8) = List.replicate k 0 ++ be32 0 := fun k =>
    List.replicate_add k 4 0
  rcases hcases with hpad | ⟨hsize, hone⟩ | ⟨hsize, htwo⟩
  · -- the padding
    have hpre : ((n - 3) / 8 + 1) * 8 = (headerText env file metaPtr dataPtr ++
        (List.range (env.sizeofAv - n)).map junk).length := by
      rw [List.length_append, List.length_map, List.length_range]
      omega
    have hcount : (max n env.sizeofAv / 8 + 1) * 8 - max n env.sizeofAv = 4 + 4 := by omega
    rw [hcount, hzeros, ← List.append_assoc] at hrest
    obtain ⟨hfirst, hsecond⟩ := wordAt_zero (w := 0) (by omega) hrest
    rw [hpre]
    exact ⟨hsecond, 0, hfirst, Or.inl ⟨rfl, by omega, by omega⟩⟩
  · -- a newline before the padding
    have hpre : ((n - 3) / 8 + 1) * 8 = (top ++ [10] ++ [12]).length := by simp; omega
    have hcount : (max n env.sizeofAv / 8 + 1) * 8 - max n env.sizeofAv = 3 + 4 := by omega
    have hword : [10] ++ List.replicate 3 0 = be32 167772160 := by decide
    rw [htop, Nat.sub_eq_zero_of_le hsize, hcount, hzeros, List.range_zero, List.map_nil,
      List.append_nil, ← List.append_assoc, List.append_assoc _ [10], hword] at hrest
    obtain ⟨hfirst, hsecond⟩ := wordAt_zero (w := 167772160) (by omega) hrest
    rw [hpre]
    exact ⟨hsecond, _, hfirst, Or.inr ⟨Or.inl rfl, by omega⟩⟩
  · -- a form feed and a newline before the padding
    have hpre : ((n - 3) / 8 + 1) * 8 = (top ++ [10]).length := by simp; omega
    have hcount : (max n env.sizeofAv / 8 + 1) * 8 - max n env.sizeofAv = 2 + 4 := by omega
    have hword : [12] ++ ([10] ++ List.replicate 2 0) = be32 201981952 := by decide
    rw [htop, Nat.sub_eq_zero_of_le hsize, hcount, hzeros, List.range_zero, List.map_nil,
      List.append_nil, ← List.append_assoc, List.append_assoc _ [10], List.append_assoc _ [12],
      hword] at hrest
    obtain ⟨hfirst, hsecond⟩ := wordAt_zero (w := 201981952) (by omega) hrest
    rw [hpre]
    exact ⟨hsecond, _, hfirst, Or.inr ⟨Or.inr rfl, by omega⟩⟩

/-! ## Empty lists -/

/-- A reader that finds no number of strings loads two empty lists. -/
theorem roundTrip_nil {map : Bytes} {p metaw listw : Nat} (hp : findHdrEnd map = some p)
    (hmetaw : wordAt map ((p / 8 + 1) * 8) = some metaw)
    (hmetac : -2 < int32 metaw ∧ int32 metaw ≤ 0)
    (hlistw : ntohlAt env.host map (((p / 8 + 1) * 8 : Nat) + 4 * (int32 metaw + 1)) = some listw)
    (hlistc : -2 < int32 listw ∧ int32 listw ≤ 0) : RoundTrip env map [] [] := by
  have hnone : ∀ (off : Int) {c : Int}, c ≤ 0 → lengthsAt env.host map off c.toNat = some [] := by
    intro off c hc
    rw [Int.toNat_of_nonpos hc]
    rfl
  exact ⟨_, (avGet_eq_some_iff hp).mpr (.mk metaw listw [] [] hmetaw hmetac.1 hlistw hlistc.1
    (fun hpos => by omega) (fun hpos => by omega) (hnone _ hmetac.2) (hnone _ hlistc.2)),
    yields_nil map, yields_nil map⟩

/-- A reader that found no number of strings loaded empty lists. -/
theorem Found.eq_nil {map : Bytes} {metav metaw listw : Nat} {metas datas : List Nat}
    (h : Found env map metav metaPtr dataPtr metaw listw metas datas) (hmetac : int32 metaw ≤ 0)
    (hlistc : int32 listw ≤ 0) : metaPtr = [] ∧ dataPtr = [] := by
  have hmetas := (mapM_range_eq_some_iff.mp h.metas_eq).1
  have hdatas := (mapM_range_eq_some_iff.mp h.datas_eq).1
  have hmeta := h.meta_half
  have hdata := h.data_half
  rw [hmetas, Int.toNat_of_nonpos hmetac] at hmeta
  rw [hdatas, Int.toNat_of_nonpos hlistc] at hdata
  exact ⟨List.length_eq_zero_iff.mp hmeta.symm, List.length_eq_zero_iff.mp hdata.symm⟩

/-! ## Names without an end mark -/

/-- Below the size of an `Av`, the reader finds a number of strings when ones were in memory. -/
theorem head_of_over (hlen : fileLength env file metaPtr dataPtr < 2 ^ 31)
    (hover : readerStart env file metaPtr dataPtr < env.sizeofAv) :
    ∃ b : UInt8, (written env (fun _ => 1) file metaPtr dataPtr)[
      readerStart env file metaPtr dataPtr]? = some b ∧ 1 ≤ b.toNat ∧ b.toNat < 128 := by
  obtain ⟨top, htop⟩ := exists_text env file metaPtr dataPtr
  obtain ⟨rest, hrest⟩ := exists_rest hlen fun _ => 1
  have htext : (headerText env file metaPtr dataPtr).length =
      textLength env file metaPtr dataPtr := rfl
  have hn : textLength env file metaPtr dataPtr = top.length + 3 := by
    rw [textLength, htop]
    simp
  unfold readerStart at hover ⊢
  generalize textLength env file metaPtr dataPtr = n at *
  rw [hrest, List.append_assoc _ _ rest]
  have hcases : n ≤ ((n - 3) / 8 + 1) * 8 ∨ ((n - 3) / 8 + 1) * 8 = top.length + 2 ∨
      ((n - 3) / 8 + 1) * 8 = top.length + 1 := by omega
  generalize ((n - 3) / 8 + 1) * 8 = start at *
  rcases hcases with hjunk | rfl | rfl
  · refine ⟨1, ?_, by decide⟩
    rw [List.getElem?_append_left, List.getElem?_append_right (by omega), List.map_const',
      List.length_range, List.getElem?_replicate, if_pos (by omega)]
    rw [List.length_append, List.length_map, List.length_range]
    omega
  · refine ⟨10, ?_, by decide⟩
    rw [htop, List.append_assoc]
    simp
  · refine ⟨12, ?_, by decide⟩
    rw [htop]
    simp

/-- **Without an end mark in a name a file is read back if and only if the reader begins at the
lengths, or in the padding and there are no lengths.** -/
theorem unmarked_iff (hlen : fileLength env file metaPtr dataPtr < 2 ^ 31)
    (hmeta : metaPtr.Pairwise fun a b => cmpElem a b ≤ 0)
    (hdata : dataPtr.Pairwise fun a b => cmpElem a b ≤ 0)
    (hfile : ¬ Marked file) (hhost : ¬ Marked env.hostname) :
    (∀ junk, RoundTrip env (written env junk file metaPtr dataPtr) metaPtr dataPtr) ↔
      Aligned env file metaPtr dataPtr ∨
        metaPtr = [] ∧ dataPtr = [] ∧ AtPadding env file metaPtr dataPtr := by
  have hp := fun junk =>
    findHdrEnd_written hlen junk (strstr_headerText hfile hhost metaPtr dataPtr)
  -- the word behind no strings
  have hnext : ∀ map, ntohlAt env.host map ((readerStart env file metaPtr dataPtr : Nat) +
      4 * (int32 (0 : Nat) + 1)) = wordAt map (readerStart env file metaPtr dataPtr + 4) := by
    intro map
    rw [Nat.cast_zero, int32_zero, ntohlAt_eq env.host map (by omega)]
    congr 1
  by_cases haligned : Aligned env file metaPtr dataPtr
  · exact ⟨fun _ => Or.inl haligned,
      fun _ => aligned_roundTrip hlen hmeta hdata hfile hhost haligned⟩
  constructor
  · intro h
    obtain ⟨metaw, listw, metas, datas, hfound⟩ := exists_found (hp fun _ => 1) (h fun _ => 1)
    change Found env _ (readerStart env file metaPtr dataPtr) _ _ _ _ _ _ at hfound
    rcases Nat.lt_or_ge (readerStart env file metaPtr dataPtr) env.sizeofAv with hover | hover
    · obtain ⟨b, hb, hlo, hhi⟩ := head_of_over hlen hover
      have hword := wordAt_head hfound.metaw_eq hb
      have hmetac : int32 metaw = metaw := int32_natCast_eq_iff.mpr (by omega)
      have hsize := hfound.sizeof_le (by omega)
      omega
    · obtain ⟨hbegin, hzero, metaw', hmetaw, hcases⟩ :=
        early_words hlen (fun _ => 1) haligned hover
      obtain rfl : metaw' = metaw := Option.some.inj (hmetaw.symm.trans hfound.metaw_eq)
      rcases hcases with ⟨rfl, hpad⟩ | ⟨hbig, -⟩
      · have hlistw := hfound.listw_eq
        rw [hnext, hzero] at hlistw
        obtain rfl := Option.some.inj hlistw
        obtain ⟨rfl, rfl⟩ := hfound.eq_nil (by decide) (by decide)
        exact Or.inr ⟨rfl, rfl, hpad⟩
      · exact (not_found_shifted hlen hbegin (by omega) hfound hzero (by omega)).elim
  · rintro (haligned' | ⟨rfl, rfl, hpad⟩) junk
    · exact absurd haligned' haligned
    · have hover : env.sizeofAv ≤ readerStart env file [] [] := by
        unfold AtPadding at hpad
        unfold readerStart
        omega
      obtain ⟨-, hzero, metaw, hmetaw, hcases⟩ := early_words hlen junk haligned hover
      rcases hcases with ⟨rfl, -⟩ | ⟨-, hnot⟩
      · exact roundTrip_nil (hp junk) hmetaw (by decide) ((hnext _).trans hzero) (by decide)
      · exact absurd hpad hnot

end Nsdci.AvFile
