import Nsdci.AvFile.Offsets

/-!
# An end mark in a name

With an end mark in the name of the file or of the host, the reader begins in the text. It takes
four bytes of it for the number of strings. If this is positive, the bytes behind it are lengths,
and the strings would be behind the end of the file (`not_found_text`). If it is -1, so is the
number of data strings, which is read at the same place, and the lists are empty.
-/

namespace Nsdci.AvFile

open Lib

variable {env : Env} {junk : Nat → UInt8} {file : CStr} {metaPtr dataPtr : List Pair}

/-- The four bytes of the text where the reader begins are those of -1. -/
def ReadsMinusOne (env : Env) (file : CStr) (metaPtr dataPtr : List Pair) : Prop :=
  ∃ p, strstr hdrEnd (headerText env file metaPtr dataPtr) = some p ∧
    ((headerText env file metaPtr dataPtr).drop ((p / 8 + 1) * 8)).take 4 = [255, 255, 255, 255]

/-- The first end mark ends well before the line with the number of meta data. -/
theorem exists_marked (hmarked : Marked file ∨ Marked env.hostname) (metaPtr dataPtr : List Pair) :
    ∃ p front back, strstr hdrEnd (headerText env file metaPtr dataPtr) = some p ∧
      headerText env file metaPtr dataPtr = front ++ ascii "# nmeta:" ++ back ∧
      p + 13 ≤ front.length := by
  obtain ⟨x, y, z, heq⟩ := headerText_marked hmarked metaPtr dataPtr
  have hmark : hdrEnd <+: (headerText env file metaPtr dataPtr).drop x.length := by
    rw [heq]
    simp only [List.append_assoc]
    rw [List.drop_left]
    exact List.prefix_append _ _
  obtain ⟨p, hle, hp⟩ := exists_strstr hmark
  refine ⟨p, x ++ hdrEnd ++ y ++ 35 :: ascii " nkeys:" ++ 32 :: (decimal dataPtr.length ++ [10]),
    32 :: (decimal metaPtr.length ++ [10] ++ 35 :: ascii " meta:") ++ z, hp, ?_, ?_⟩
  · have hline : ascii "# nmeta:" = 35 :: ascii " nmeta:" := by decide
    rw [heq, hline]
    simp only [List.append_assoc, List.cons_append]
  · have hkeys : (ascii " nkeys:").length = 7 := by decide
    have hend : hdrEnd.length = 3 := rfl
    simp only [List.length_append, List.length_cons, List.length_nil, hkeys, hend]
    omega

/-- A byte of the text is positive. -/
theorem text_pos {i : Nat} {b : UInt8} (h : (headerText env file metaPtr dataPtr)[i]? = some b) :
    0 < b.toNat := by
  refine Nat.pos_of_ne_zero fun hzero => nulFree_headerText env file metaPtr dataPtr ?_
  have hb : b = 0 := UInt8.toNat_inj.mp hzero
  exact hb ▸ List.mem_of_getElem? h

/-- Two bytes of the line with the number of meta data, 4 apart, make 128. -/
theorem nmeta_bytes {r : Nat} (hr : r < 4) : ∃ b c : UInt8, (ascii "# nmeta:")[r]? = some b ∧
    (ascii "# nmeta:")[r + 4]? = some c ∧ 128 ≤ b.toNat + c.toNat := by
  match r, hr with
  | 0, _ => exact ⟨35, 101, by decide⟩
  | 1, _ => exact ⟨32, 116, by decide⟩
  | 2, _ => exact ⟨110, 97, by decide⟩
  | 3, _ => exact ⟨109, 58, by decide⟩

/-- **A reader that takes text for the lengths does not read the strings.** -/
theorem not_found_text (hlen : fileLength env file metaPtr dataPtr < 2 ^ 31)
    {p metaw listw : Nat} {front back : Bytes} {metas datas : List Nat}
    (heq : headerText env file metaPtr dataPtr = front ++ ascii "# nmeta:" ++ back)
    (hfront : p + 13 ≤ front.length) (hmetaw : 2 ^ 24 ≤ metaw ∧ metaw < 2 ^ 31)
    (hfound : Found env (written env junk file metaPtr dataPtr) ((p / 8 + 1) * 8) metaPtr dataPtr
      metaw listw metas datas) : False := by
  obtain ⟨rest, hrest⟩ := exists_rest hlen junk
  simp only [List.append_assoc] at hrest
  have hmetas := hfound.metas_eq
  rw [int32_natCast_eq_iff.mpr hmetaw.2, Int.toNat_natCast, lengthsAt_eq_some_iff] at hmetas
  obtain ⟨hmetasLen, hmetas⟩ := hmetas
  -- the strings are in the file
  have hsmall : ∀ i, i + 1 < metaw → (metas.take i).sum < 2 ^ 31 := by
    intro i hi
    have hin : i < (listv metaPtr).length := by
      have hhalf := hfound.meta_half
      rw [length_listv]
      omega
    have hfits := stringAt_fits (hfound.meta_string i _ (List.getElem?_eq_getElem hin))
    rw [length_written hlen] at hfits
    have hle := (Nat.le_add_left _ _).trans ((Nat.le_add_right _ _).trans hfits)
    exact lt_of_le_of_lt hle hlen
  -- a byte of the text makes the next string as far away as it says
  have hword : ∀ {j : Nat} {b : UInt8}, j < metaw →
      (headerText env file metaPtr dataPtr)[(p / 8 + 1) * 8 + 4 * (j + 1)]? = some b →
      (metas.take j).sum + b.toNat * 2 ^ 24 ≤ (metas.take (j + 1)).sum := by
    intro j b hj hb
    obtain ⟨hin, -⟩ := List.getElem?_eq_some_iff.mp hb
    have hat := hmetas j hj
    rw [List.getElem?_eq_getElem (hmetasLen ▸ hj)] at hat
    have hhead := wordAt_head hat (by rw [hrest, List.getElem?_append_left hin, hb])
    rw [List.sum_take_succ metas j (hmetasLen ▸ hj)]
    omega
  -- the first word that begins in the line with the number of meta data
  obtain ⟨j, r, hr, hline⟩ : ∃ j r, r < 4 ∧ (p / 8 + 1) * 8 + 4 * (j + 1) = front.length + r :=
    ⟨(front.length - ((p / 8 + 1) * 8 + 4) + 3) / 4,
      4 * ((front.length - ((p / 8 + 1) * 8 + 4) + 3) / 4) -
        (front.length - ((p / 8 + 1) * 8 + 4)), by omega, by omega⟩
  rcases Nat.lt_or_ge j 128 with hfew | hmany
  · -- two words of this line are enough
    have hbyte : ∀ k < 8, (headerText env file metaPtr dataPtr)[front.length + k]? =
        (ascii "# nmeta:")[k]? := by
      intro k hk
      rw [heq, List.append_assoc, List.getElem?_append_right (Nat.le_add_right _ _),
        Nat.add_sub_cancel_left, List.getElem?_append_left hk]
    obtain ⟨b, c, hb, hc, hsum⟩ := nmeta_bytes hr
    have hfirst := hword (j := j) (b := b) (by omega) (by rw [hline, hbyte r (by omega), hb])
    have hnext : (p / 8 + 1) * 8 + 4 * (j + 1 + 1) = front.length + (r + 4) := by omega
    have hsecond := hword (j := j + 1) (b := c) (by omega)
      (by rw [hnext, hbyte (r + 4) (by omega), hc])
    have := hsmall (j + 1 + 1) (by omega)
    omega
  · -- as many words before it are
    have hones : ∀ k ≤ 128, k * 2 ^ 24 ≤ (metas.take k).sum := by
      intro k hk
      induction k with
      | zero => omega
      | succ k ih =>
          have hin : (p / 8 + 1) * 8 + 4 * (k + 1) <
              (headerText env file metaPtr dataPtr).length := by
            rw [heq, List.append_assoc, List.length_append]
            omega
          have hb := List.getElem?_eq_getElem hin
          have hstep := hword (by omega) hb
          have hbefore := ih (by omega)
          rw [Nat.succ_mul]
          exact le_trans (Nat.add_le_add hbefore (Nat.le_mul_of_pos_left _ (text_pos hb))) hstep
    have := hones 128 (by omega)
    have := hsmall 128 (by omega)
    omega

/-- **With an end mark in a name a file is read back if and only if the reader takes -1 for the
numbers of strings, and there are none.** -/
theorem marked_iff (hlen : fileLength env file metaPtr dataPtr < 2 ^ 31)
    (hmarked : Marked file ∨ Marked env.hostname) :
    (∀ junk, RoundTrip env (written env junk file metaPtr dataPtr) metaPtr dataPtr) ↔
      metaPtr = [] ∧ dataPtr = [] ∧ ReadsMinusOne env file metaPtr dataPtr := by
  obtain ⟨p, front, back, hp, heq, hfront⟩ := exists_marked hmarked metaPtr dataPtr
  have hfits : (p / 8 + 1) * 8 + 4 ≤ (headerText env file metaPtr dataPtr).length := by
    rw [heq, List.append_assoc, List.length_append]
    omega
  have hword : ∀ junk, wordAt (written env junk file metaPtr dataPtr) ((p / 8 + 1) * 8) =
      some (ofBe32 (((headerText env file metaPtr dataPtr).drop ((p / 8 + 1) * 8)).take 4)) := by
    intro junk
    obtain ⟨rest, hrest⟩ := exists_rest hlen junk
    simp only [List.append_assoc] at hrest
    rw [hrest]
    exact wordAt_append_left hfits _
  have hfour : (((headerText env file metaPtr dataPtr).drop
      ((p / 8 + 1) * 8)).take 4).length = 4 := by
    rw [List.length_take, List.length_drop]
    omega
  -- behind -1 strings is their number
  have hminus : int32 (4294967295 : Nat) = -1 := by decide
  have hsame : ∀ map, ntohlAt env.host map (((p / 8 + 1) * 8 : Nat) +
      4 * (int32 (4294967295 : Nat) + 1)) = wordAt map ((p / 8 + 1) * 8) := by
    intro map
    rw [hminus, ntohlAt_eq env.host map (by omega)]
    congr 1
  constructor
  · intro h
    obtain ⟨metaw, listw, metas, datas, hfound⟩ :=
      exists_found (findHdrEnd_written hlen (fun _ => 0) hp) (h fun _ => 0)
    have hmetaw : ofBe32 _ = metaw :=
      Option.some.inj ((hword fun _ => 0).symm.trans hfound.metaw_eq)
    have hlt := hmetaw ▸ ofBe32_lt _
    rcases Nat.lt_or_ge metaw (2 ^ 31) with hpos | hneg
    · -- text for the lengths
      have hin : (p / 8 + 1) * 8 < (headerText env file metaPtr dataPtr).length := by omega
      have hb := List.getElem?_eq_getElem hin
      obtain ⟨rest, hrest⟩ := exists_rest hlen fun _ => 0
      simp only [List.append_assoc] at hrest
      have hhead := wordAt_head hfound.metaw_eq
        (by rw [hrest, List.getElem?_append_left hin, hb])
      have hbyte := text_pos hb
      exact (not_found_text hlen heq hfront (by omega) hfound).elim
    · -- no strings
      have hmetac := int32_natCast_of_ge hneg hlt
      have hgt := hfound.metac_gt
      obtain rfl : metaw = 4294967295 := by omega
      have hlistw := hfound.listw_eq
      rw [hsame, hfound.metaw_eq] at hlistw
      obtain rfl := Option.some.inj hlistw
      obtain ⟨rfl, rfl⟩ := hfound.eq_nil (by omega) (by omega)
      refine ⟨rfl, rfl, p, hp, ?_⟩
      rw [← be32_ofBe32 hfour, hmetaw]
      decide
  · rintro ⟨rfl, rfl, q, hq, hones⟩ junk
    obtain rfl : p = q := Option.some.inj (hp.symm.trans hq)
    have hmetaw := hword junk
    rw [hones] at hmetaw
    have hvalue : ofBe32 [255, 255, 255, 255] = 4294967295 := by decide
    rw [hvalue] at hmetaw
    exact roundTrip_nil (findHdrEnd_written hlen junk hp) hmetaw (by omega)
      ((hsame _).trans hmetaw) (by omega)

end Nsdci.AvFile
