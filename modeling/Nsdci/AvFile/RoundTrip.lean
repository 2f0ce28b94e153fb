import Nsdci.AvFile.Header
import Nsdci.AvFile.Layout

/-!
# The round trip of an AV file

When the reader begins at the lengths, it makes of them pointers to the strings of the lists, which
are sorted, so that a search finds what is there (`aligned_roundTrip`).
-/

namespace Nsdci.AvFile

open Lib

variable {env : Env} {junk : Nat → UInt8} {file : CStr} {metaPtr dataPtr : List Pair}

/-! ## What a list of a mapped file yields -/

/-- A list of a mapped file has the strings of these pairs, and a search finds a value of a key
exactly if there is one. -/
structure Yields (map : Bytes) (list : List Elem) (pairs : List Pair) : Prop where
  pairs_eq : list.map (pairAt map) = pairs.map fun e => some (e.1.1, e.2.1)
  isSome_iff : ∀ key, (listSearch map list key).isSome ↔ ∃ e ∈ pairs, e.1 = key
  found : ∀ key e, listSearch map list key = some e →
    ∃ value, (key, value) ∈ pairs ∧ pairAt map e = some (key.1, value.1)

/-- The loaded file yields the two lists. -/
def RoundTrip (env : Env) (map : Bytes) (metaPtr dataPtr : List Pair) : Prop :=
  ∃ av, avGet env map = some av ∧ Yields map av.metaElems metaPtr ∧ Yields map av.dataElems dataPtr

/-- The key of an element. -/
theorem key_of_pairAt {map : Bytes} {e : Elem} {key value : Bytes}
    (h : pairAt map e = some (key, value)) : stringAt map e.key = some key := by
  obtain ⟨k, hk, h⟩ := Option.bind_eq_some_iff.mp h
  obtain ⟨v, -, heq⟩ := Option.map_eq_some_iff.mp h
  exact (Prod.mk.inj heq).1 ▸ hk

/-- **A list that has the strings of sorted pairs yields them.** -/
theorem yields_of_pairs {map : Bytes} {list : List Elem} {pairs : List Pair}
    (hpairs : list.map (pairAt map) = pairs.map fun e => some (e.1.1, e.2.1))
    (hsorted : pairs.Pairwise fun a b => cmpElem a b ≤ 0) : Yields map list pairs := by
  -- the elements and the pairs, one for one
  have helem : ∀ e ∈ list, ∃ x ∈ pairs, pairAt map e = some (x.1.1, x.2.1) := by
    intro e he
    have hmem : pairAt map e ∈ list.map (pairAt map) := List.mem_map_of_mem he
    rw [hpairs] at hmem
    obtain ⟨x, hx, heq⟩ := List.mem_map.mp hmem
    exact ⟨x, hx, heq.symm⟩
  have hpair : ∀ x ∈ pairs, ∃ e ∈ list, pairAt map e = some (x.1.1, x.2.1) := by
    intro x hx
    have hmem : some (x.1.1, x.2.1) ∈ pairs.map fun e : Pair => some (e.1.1, e.2.1) :=
      List.mem_map_of_mem (f := fun e : Pair => some (e.1.1, e.2.1)) hx
    rw [← hpairs] at hmem
    exact List.mem_map.mp hmem
  have hkeys : list.map (fun e => (stringAt map e.key).getD []) = pairs.map fun e => e.1.1 := by
    have hget : list.map (fun e => (stringAt map e.key).getD []) =
        (list.map (pairAt map)).map fun o => (o.getD ([], [])).1 := by
      rw [List.map_map]
      refine List.map_congr_left fun e he => ?_
      obtain ⟨x, -, hx⟩ := helem e he
      show (stringAt map e.key).getD [] = ((pairAt map e).getD ([], [])).1
      rw [hx, key_of_pairAt hx]
      rfl
    rw [hget, hpairs, List.map_map]
    rfl
  have hlist : list.Pairwise fun a b =>
      strcmp ((stringAt map a.key).getD []) ((stringAt map b.key).getD []) ≤ 0 := by
    have hmapped : (pairs.map fun e => e.1.1).Pairwise fun s t => strcmp s t ≤ 0 :=
      List.pairwise_map.mpr hsorted
    rw [← hkeys] at hmapped
    exact List.pairwise_map.mp hmapped
  refine ⟨hpairs, fun key => ?_, fun key e he => ?_⟩
  · unfold listSearch
    rw [bsearch_isSome_iff (hlist.imp fun hle hlt => strcmp_lt_of_lt_of_le hlt hle)
      (hlist.imp fun hle hpos => (strcmp_neg_iff _ _).mp
        (strcmp_lt_of_le_of_lt hle ((strcmp_neg_iff _ _).mpr hpos)))]
    constructor
    · rintro ⟨e, he, hcmp⟩
      obtain ⟨x, hx, hxe⟩ := helem e he
      rw [key_of_pairAt hxe, strcmp_eq_zero_iff] at hcmp
      exact ⟨x, hx, Subtype.ext hcmp.symm⟩
    · rintro ⟨x, hx, rfl⟩
      obtain ⟨e, he, hxe⟩ := hpair x hx
      refine ⟨e, he, ?_⟩
      rw [key_of_pairAt hxe, strcmp_eq_zero_iff]
      rfl
  · obtain ⟨hmem, hcmp⟩ := bsearch_some he
    obtain ⟨x, hx, hxe⟩ := helem e hmem
    rw [key_of_pairAt hxe, strcmp_eq_zero_iff] at hcmp
    obtain rfl : key = x.1 := Subtype.ext hcmp
    exact ⟨x.2, hx, hxe⟩

/-- No elements yield no pairs. -/
theorem yields_nil (map : Bytes) : Yields map [] [] :=
  yields_of_pairs rfl List.Pairwise.nil

/-- Pointers to the strings of pairs are elements with these strings. -/
theorem map_pairAt {map : Bytes} {list : List Pair} {ps : List Nat}
    (h : ps.map (stringAt map) = (listv list).map fun s => some s.1) :
    (elems ps).map (pairAt map) = list.map fun e => some (e.1.1, e.2.1) := by
  induction list generalizing ps with
  | nil =>
      obtain rfl : ps = [] := List.map_eq_nil_iff.mp h
      rfl
  | cons e list ih =>
      obtain ⟨key, ps, rfl, hkey, h⟩ := List.map_eq_cons_iff.mp h
      obtain ⟨value, ps, rfl, hvalue, h⟩ := List.map_eq_cons_iff.mp h
      show pairAt map ⟨key, value⟩ :: (elems ps).map (pairAt map) = _
      rw [ih h, pairAt, hkey, Option.bind_some, hvalue]
      rfl

/-! ## A file that is read where it was written -/

/-- The length of the text. -/
def textLength (env : Env) (file : CStr) (metaPtr dataPtr : List Pair) : Nat :=
  (headerText env file metaPtr dataPtr).length

/-- The first multiple of 8 behind the beginning of the end mark is the one behind the text and the
size of an `Av`. -/
def Aligned (env : Env) (file : CStr) (metaPtr dataPtr : List Pair) : Prop :=
  (textLength env file metaPtr dataPtr - 3) / 8 =
    max (textLength env file metaPtr dataPtr) env.sizeofAv / 8

/-- The reader finds the end mark of the text in the file. -/
theorem findHdrEnd_written (hlen : fileLength env file metaPtr dataPtr < 2 ^ 31)
    (junk : Nat → UInt8) {p : Nat}
    (hp : strstr hdrEnd (headerText env file metaPtr dataPtr) = some p) :
    findHdrEnd (written env junk file metaPtr dataPtr) = some p := by
  rw [written_eq hlen, appendHdr_eq]
  simp only [List.append_assoc]
  exact findHdrEnd_append (nulFree_headerText env file metaPtr dataPtr) _ hp

/-- **A reader that begins at the lengths makes pointers to the strings.** -/
theorem readAt_hdrLength (hlen : fileLength env file metaPtr dataPtr < 2 ^ 31)
    (junk : Nat → UInt8) :
    ∃ av, ReadAt env (written env junk file metaPtr dataPtr)
        (hdrLength env file metaPtr dataPtr) av ∧
      av.metaElems.map (pairAt (written env junk file metaPtr dataPtr)) =
        metaPtr.map (fun e => some (e.1.1, e.2.1)) ∧
      av.dataElems.map (pairAt (written env junk file metaPtr dataPtr)) =
        dataPtr.map (fun e => some (e.1.1, e.2.1)) := by
  have hmetac : int32 (listv metaPtr).length = (listv metaPtr).length :=
    int32_natCast_eq_iff.mpr (by unfold fileLength at hlen; omega)
  have hlistc : int32 (listv dataPtr).length = (listv dataPtr).length :=
    int32_natCast_eq_iff.mpr (by unfold fileLength at hlen; omega)
  have hover : env.sizeofAv ≤ hdrLength env file metaPtr dataPtr := by
    unfold hdrLength
    omega
  have hlistv : ((hdrLength env file metaPtr dataPtr : Nat) : Int) +
      4 * (int32 (listv metaPtr).length + 1) =
        (hdrLength env file metaPtr dataPtr + 4 * ((listv metaPtr).length + 1) : Nat) := by
    rw [hmetac]
    push_cast
    ring
  have hstr : ((hdrLength env file metaPtr dataPtr : Nat) : Int) +
      4 * (int32 (listv metaPtr).length + 1) + 4 * (int32 (listv dataPtr).length + 1) =
        ((appendHdr env junk file metaPtr dataPtr ++
          table metaPtr ++ table dataPtr).length : Nat) := by
    rw [hlistv, hlistc]
    simp only [List.length_append, length_appendHdr, table, length_words, List.length_cons, lengths,
      List.length_map]
    push_cast
    ring
  have hread : ReadAt env (written env junk file metaPtr dataPtr)
      (hdrLength env file metaPtr dataPtr) _ :=
      ReadAt.mk (listv metaPtr).length (listv dataPtr).length
    (lengths (listv metaPtr)) (lengths (listv dataPtr)) (wordAt_meta hlen junk (Nat.zero_le _))
    (by omega)
    (by
      rw [hlistv, ntohlAt_eq _ _ (by omega)]
      exact wordAt_data hlen junk (Nat.zero_le _))
    (by omega) (fun _ => hover) (fun _ => by omega)
    (by
      rw [hmetac, lengthsAt_eq_some_iff]
      refine ⟨by simp [lengths], fun k hk => ?_⟩
      exact wordAt_meta hlen junk (Nat.succ_le_of_lt hk))
    (by
      rw [hlistv, hlistc, lengthsAt_eq_some_iff]
      refine ⟨by simp [lengths], fun k hk => ?_⟩
      exact wordAt_data hlen junk (Nat.succ_le_of_lt hk))
  rw [hstr] at hread
  refine ⟨_, hread, map_pairAt ?_, map_pairAt ?_⟩
  · have hstrings := stringAt_pointers
      (appendHdr env junk file metaPtr dataPtr ++ table metaPtr ++ table dataPtr)
      (strings (listv dataPtr)) (listv metaPtr)
    rwa [← written_eq hlen] at hstrings
  · have hstrings := stringAt_pointers
      (appendHdr env junk file metaPtr dataPtr ++ table metaPtr ++ table dataPtr ++
        strings (listv metaPtr)) [] (listv dataPtr)
    rwa [List.append_nil, ← written_eq hlen, List.length_append, length_strings] at hstrings

/-- **A file whose text ends where the reader looks for the lengths is read back.** -/
theorem aligned_roundTrip (hlen : fileLength env file metaPtr dataPtr < 2 ^ 31)
    (hmeta : metaPtr.Pairwise fun a b => cmpElem a b ≤ 0)
    (hdata : dataPtr.Pairwise fun a b => cmpElem a b ≤ 0)
    (hfile : ¬ Marked file) (hhost : ¬ Marked env.hostname)
    (haligned : Aligned env file metaPtr dataPtr) (junk : Nat → UInt8) :
    RoundTrip env (written env junk file metaPtr dataPtr) metaPtr dataPtr := by
  obtain ⟨av, hread, hmetaPairs, hdataPairs⟩ := readAt_hdrLength hlen junk
  refine ⟨av, ?_, yields_of_pairs hmetaPairs hmeta, yields_of_pairs hdataPairs hdata⟩
  have hp := findHdrEnd_written hlen junk (strstr_headerText hfile hhost metaPtr dataPtr)
  have hmetav : ((headerText env file metaPtr dataPtr).length - 3) / 8 =
      max (headerText env file metaPtr dataPtr).length env.sizeofAv / 8 := haligned
  rw [avGet_eq_some_iff hp, hmetav]
  exact hread

end Nsdci.AvFile
