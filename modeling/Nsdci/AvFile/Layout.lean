import Nsdci.AvFile
import Mathlib.Algebra.Order.BigOperators.Group.List

/-!
# The layout of an AV file

What the writer makes is the text with its padding, a table of lengths for each list, and the
strings (`written_eq`), in network byte order on either host. `avGet_eq_some` says what the reader
found when it gave an `Av`.
-/

namespace Nsdci.AvFile

open Lib
open TclExport (Order)

/-! ## Words -/

/-- A word of the host is stored as the bytes it was made of. -/
theorem store_word (host : Order) {bs : Bytes} (h : bs.length = 4) :
    store host (host.word bs) = bs := by
  cases host with
  | big => exact be32_ofBe32 h
  | little =>
      show (be32 (ofBe32 bs.reverse)).reverse = bs
      rw [be32_ofBe32 (by rw [List.length_reverse, h]), List.reverse_reverse]

/-- `htonl` makes a word with the bytes in network byte order. -/
theorem store_htonl (host : Order) (n : Nat) : store host (htonl host n) = be32 n :=
  store_word host rfl

/-- A stored word of the host is read back. -/
theorem word_store (host : Order) {n : Nat} (h : n < 2 ^ 32) : host.word (store host n) = n := by
  cases host with
  | big => exact ofBe32_be32_natCast h
  | little =>
      show ofBe32 (be32 n).reverse.reverse = n
      rw [List.reverse_reverse]
      exact ofBe32_be32_natCast h

@[simp] theorem length_store (host : Order) (n : Nat) : (store host n).length = 4 := by
  cases host <;> rfl

/-- `ntohl` of a word of the host is the number in network byte order. -/
theorem ntohl_word (host : Order) {bs : Bytes} (h : bs.length = 4) :
    ntohl host (host.word bs) = ofBe32 bs := by
  rw [ntohl, store_word host h]

/-- The reader reads words in network byte order. -/
theorem ntohlAt_eq (host : Order) (map : Bytes) {off : Int} (h : 0 ≤ off) :
    ntohlAt host map off = wordAt map off.toNat := by
  unfold ntohlAt wordAt
  refine if_ctx_congr ?_ (fun hfits => ?_) fun _ => rfl
  · rw [and_iff_right h]
    omega
  · rw [ntohl_word]
    rw [List.length_take, List.length_drop]
    omega

/-! ## The writer -/

/-- `AppendStrings` makes the lengths words in network byte order, and appends the strings. -/
theorem appendStrings_eq (host : Order) (ss : List CStr) (pre post : Bytes)
    (hlengths : ∀ s ∈ ss, s.1.length + 1 < 2 ^ 32) :
    appendStrings host (pre ++ (ss.flatMap fun s => store host (s.1.length + 1)) ++ post) ss
      pre.length = pre ++ words (lengths ss) ++ post ++ strings ss := by
  induction ss generalizing pre post with
  | nil =>
      show pre ++ [] ++ post = pre ++ [] ++ post ++ []
      rw [List.append_nil (_ ++ post)]
  | cons s ss ih =>
      have hs : s.1.length + 1 < 2 ^ 32 := hlengths s List.mem_cons_self
      have hlen : (asciz s.1).length = s.1.length + 1 := by
        rw [asciz, List.length_append, List.length_singleton]
      have hds : pre ++ ((s :: ss).flatMap fun s => store host (s.1.length + 1)) ++ post =
          pre ++ (store host (s.1.length + 1) ++
            ((ss.flatMap fun s => store host (s.1.length + 1)) ++ post)) := by
        rw [List.flatMap_cons]
        simp only [List.append_assoc]
      have hword : host.word (((pre ++ (store host (s.1.length + 1) ++
          ((ss.flatMap fun s => store host (s.1.length + 1)) ++ post))).drop pre.length).take 4) =
            s.1.length + 1 := by
        rw [List.drop_left, List.take_left' (length_store host _), word_store host hs]
      have hrest : (pre ++ (store host (s.1.length + 1) ++
          ((ss.flatMap fun s => store host (s.1.length + 1)) ++ post))).drop (pre.length + 4) =
            (ss.flatMap fun s => store host (s.1.length + 1)) ++ post := by
        rw [← List.drop_drop, List.drop_left, List.drop_left' (length_store host _)]
      have hnext : pre.length + 4 = (pre ++ be32 (s.1.length + 1 : Nat)).length := by
        rw [List.length_append, length_be32]
      rw [hds, appendStrings, hword, hrest, List.take_left, store_htonl, ← hlen, List.take_length,
        hlen, hnext]
      have hih := ih (pre ++ be32 (s.1.length + 1 : Nat)) (post ++ asciz s.1)
        fun s' hs' => hlengths s' (List.mem_cons_of_mem s hs')
      have hwords : words (lengths (s :: ss)) = be32 (s.1.length + 1 : Nat) ++ words (lengths ss) :=
        rfl
      rw [hwords, strings_cons]
      simp only [List.append_assoc] at hih ⊢
      exact hih

/-- The lengths of `AppendLengths` are words. -/
@[simp] theorem length_stored (host : Order) (ss : List CStr) :
    (ss.flatMap fun s => store host (s.1.length + 1)).length = 4 * ss.length := by
  induction ss with
  | nil => rfl
  | cons s ss ih =>
      rw [List.flatMap_cons, List.length_append, length_store, ih, List.length_cons]
      ring

/-- What the writer makes of a list: the number of its strings, and their lengths. -/
def table (list : List Pair) : Bytes :=
  words ((listv list).length :: lengths (listv list))

/-- **A file is the header, a table for each list, and the strings.** -/
theorem written_eq {env : Env} {file : CStr} {metaPtr dataPtr : List Pair}
    (hlen : fileLength env file metaPtr dataPtr < 2 ^ 31) (junk : Nat → UInt8) :
    written env junk file metaPtr dataPtr = appendHdr env junk file metaPtr dataPtr ++
      table metaPtr ++ table dataPtr ++ strings (listv metaPtr) ++ strings (listv dataPtr) := by
  have hshort : ∀ ss : List CStr, (lengths ss).sum < 2 ^ 31 →
      ∀ s ∈ ss, s.1.length + 1 < 2 ^ 32 := by
    intro ss hsum s hs
    have hle : s.1.length + 1 ≤ (lengths ss).sum := List.le_sum_of_mem (List.mem_map_of_mem hs)
    omega
  have hmeta := hshort (listv metaPtr) (by unfold fileLength at hlen; omega)
  have hdata := hshort (listv dataPtr) (by unfold fileLength at hlen; omega)
  have htable : ∀ list : List Pair, table list =
      be32 (listv list).length ++ words (lengths (listv list)) := fun _ => rfl
  unfold written appendLengths
  dsimp only
  rw [store_htonl, store_htonl, htable, htable]
  generalize appendHdr env junk file metaPtr dataPtr = hdr
  have hfirst := appendStrings_eq env.host (listv metaPtr) (hdr ++ be32 (listv metaPtr).length)
    (be32 (listv dataPtr).length ++
      (listv dataPtr).flatMap fun s => store env.host (s.1.length + 1)) hmeta
  have hsecond := appendStrings_eq env.host (listv dataPtr)
    (hdr ++ be32 (listv metaPtr).length ++ words (lengths (listv metaPtr)) ++
      be32 (listv dataPtr).length) (strings (listv metaPtr)) hdata
  rw [List.length_append, length_be32] at hfirst
  have hoff : (hdr ++ be32 (listv metaPtr).length ++
      (listv metaPtr).flatMap fun s => store env.host (s.1.length + 1)).length + 4 =
        (hdr ++ be32 (listv metaPtr).length ++ words (lengths (listv metaPtr)) ++
          be32 (listv dataPtr).length).length := by
    simp only [List.length_append, length_be32, length_stored, length_words, lengths,
      List.length_map]
  rw [List.append_assoc _ (be32 (listv dataPtr).length), hfirst, hoff]
  simp only [List.append_assoc] at hsecond ⊢
  exact hsecond

/-- Where the lengths begin: the text, or the size of an `Av`, is padded. -/
def hdrLength (env : Env) (file : CStr) (metaPtr dataPtr : List Pair) : Nat :=
  (max (headerText env file metaPtr dataPtr).length env.sizeofAv / 8 + 1) * 8

/-- The header is the text, what was in memory up to the size of an `Av`, and zeros. -/
theorem appendHdr_eq (env : Env) (junk : Nat → UInt8) (file : CStr) (metaPtr dataPtr : List Pair) :
    appendHdr env junk file metaPtr dataPtr = headerText env file metaPtr dataPtr ++
      (List.range (env.sizeofAv - (headerText env file metaPtr dataPtr).length)).map junk ++
      List.replicate (hdrLength env file metaPtr dataPtr -
        max (headerText env file metaPtr dataPtr).length env.sizeofAv) 0 := by
  unfold appendHdr hdrLength
  generalize headerText env file metaPtr dataPtr = text
  dsimp only
  have hmax : (if text.length < env.sizeofAv then env.sizeofAv else text.length) =
      max text.length env.sizeofAv := by
    split_ifs <;> omega
  have hjunk : max text.length env.sizeofAv - text.length = env.sizeofAv - text.length := by omega
  rw [hmax, hjunk]

theorem length_appendHdr (env : Env) (junk : Nat → UInt8) (file : CStr)
    (metaPtr dataPtr : List Pair) :
    (appendHdr env junk file metaPtr dataPtr).length = hdrLength env file metaPtr dataPtr := by
  have hle : max (headerText env file metaPtr dataPtr).length env.sizeofAv ≤
      hdrLength env file metaPtr dataPtr := by
    unfold hdrLength
    omega
  rw [appendHdr_eq]
  simp only [List.length_append, List.length_map, List.length_range, List.length_replicate]
  omega

/-- The length of a file. -/
theorem length_written {env : Env} {file : CStr} {metaPtr dataPtr : List Pair}
    (hlen : fileLength env file metaPtr dataPtr < 2 ^ 31) (junk : Nat → UInt8) :
    (written env junk file metaPtr dataPtr).length = fileLength env file metaPtr dataPtr := by
  rw [written_eq hlen]
  simp only [List.length_append, length_appendHdr, table, length_words, List.length_cons, lengths,
    List.length_map, length_strings, fileLength]

/-- The length of a list, and those of its strings, are less than that of the file. -/
theorem words_lt {list : List Pair} {n : Nat}
    (h : 4 * ((listv list).length + 1) + (lengths (listv list)).sum ≤ n) :
    ∀ w ∈ (listv list).length :: lengths (listv list), w < n := by
  intro w hw
  rcases List.mem_cons.mp hw with rfl | hw
  · omega
  · have hle := List.le_sum_of_mem hw
    omega

section Tables

variable {env : Env} {file : CStr} {metaPtr dataPtr : List Pair}
  (hlen : fileLength env file metaPtr dataPtr < 2 ^ 31) (junk : Nat → UInt8)
include hlen

/-- The table of the meta data. -/
theorem wordAt_meta {k : Nat} (hk : k ≤ (listv metaPtr).length) :
    wordAt (written env junk file metaPtr dataPtr) (hdrLength env file metaPtr dataPtr + 4 * k) =
      ((listv metaPtr).length :: lengths (listv metaPtr))[k]? := by
  have hws : ∀ w ∈ (listv metaPtr).length :: lengths (listv metaPtr), w < 2 ^ 32 := by
    refine words_lt ?_
    unfold fileLength at hlen
    omega
  rw [written_eq hlen, ← length_appendHdr env junk]
  simp only [List.append_assoc]
  rw [← List.append_assoc]
  exact wordAt_words _ _ hws (by simpa [lengths, Nat.lt_succ_iff] using hk)

/-- The table of the data. -/
theorem wordAt_data {k : Nat} (hk : k ≤ (listv dataPtr).length) :
    wordAt (written env junk file metaPtr dataPtr)
      (hdrLength env file metaPtr dataPtr + 4 * ((listv metaPtr).length + 1) + 4 * k) =
        ((listv dataPtr).length :: lengths (listv dataPtr))[k]? := by
  have hws : ∀ w ∈ (listv dataPtr).length :: lengths (listv dataPtr), w < 2 ^ 32 := by
    refine words_lt ?_
    unfold fileLength at hlen
    omega
  have hpre : hdrLength env file metaPtr dataPtr + 4 * ((listv metaPtr).length + 1) =
      (appendHdr env junk file metaPtr dataPtr ++ table metaPtr).length := by
    rw [List.length_append, length_appendHdr, table, length_words, List.length_cons, lengths,
      List.length_map]
  rw [written_eq hlen, hpre, List.append_assoc _ (strings (listv metaPtr))]
  exact wordAt_words _ _ hws (by simpa [lengths, Nat.lt_succ_iff] using hk)

end Tables

/-! ## The reader -/

/-- The end of the text is looked for up to a NUL. -/
theorem findHdrEnd_append {s : Bytes} (hs : NulFree s) (rest : Bytes) {i : Nat}
    (h : strstr hdrEnd s = some i) : findHdrEnd (s ++ rest) = some i := by
  induction s generalizing i with
  | nil => exact absurd h (by simp [strstr, hdrEnd])
  | cons c s ih =>
      have hc : c ≠ 0 := fun hc => hs (hc ▸ List.mem_cons_self)
      have hfree : NulFree s := fun hmem => hs (List.mem_cons_of_mem c hmem)
      rw [List.cons_append, findHdrEnd, if_neg hc]
      rw [strstr] at h
      split_ifs at h with hpre
      · have hpre' : hdrEnd <+: c :: (s ++ rest) := hpre.trans (List.prefix_append (c :: s) rest)
        rw [if_pos hpre']
        exact h
      · obtain ⟨j, hj, rfl⟩ := Option.map_eq_some_iff.mp h
        have hlong := (prefix_of_strstr hj).length_le
        have hno : ¬ hdrEnd <+: c :: (s ++ rest) := by
          intro hpre'
          refine hpre (List.prefix_of_prefix_length_le hpre' (List.prefix_append (c :: s) rest) ?_)
          rw [List.length_drop] at hlong
          rw [List.length_cons]
          omega
        rw [if_neg hno, ih hfree hj]
        rfl

/-- A list of results, one for each number. -/
theorem mapM_range_eq_some_iff {β : Type} {f : Nat → Option β} {n : Nat} {l : List β} :
    (List.range n).mapM f = some l ↔ l.length = n ∧ ∀ k < n, f k = l[k]? := by
  induction n generalizing l with
  | zero =>
      rw [List.range_zero, List.mapM_nil]
      simp [eq_comm]
  | succ n ih =>
      have hsplit : (List.range (n + 1)).mapM f = some l ↔
          ∃ a x, (List.range n).mapM f = some a ∧ f n = some x ∧ l = a ++ [x] := by
        rw [List.range_succ, List.mapM_append]
        simp [Option.bind_eq_some_iff, @eq_comm _ _ l]
      rw [hsplit]
      constructor
      · rintro ⟨a, x, ha, hx, rfl⟩
        obtain ⟨hlen, hall⟩ := ih.mp ha
        refine ⟨by rw [List.length_append, hlen]; rfl, fun k hk => ?_⟩
        rcases Nat.lt_succ_iff_lt_or_eq.mp hk with hlt | rfl
        · rw [hall k hlt, List.getElem?_append_left (hlen ▸ hlt)]
        · rw [hx, ← hlen, List.getElem?_concat_length]
      · rintro ⟨hlen, hall⟩
        have hne : l ≠ [] := List.ne_nil_of_length_eq_add_one hlen
        obtain ⟨a, x, rfl⟩ : ∃ a x, l = a ++ [x] :=
          ⟨l.dropLast, l.getLast hne, (List.dropLast_append_getLast hne).symm⟩
        have hlen' : a.length = n := by simpa using hlen
        refine ⟨a, x, ih.mpr ⟨hlen', fun k hk => ?_⟩, ?_, rfl⟩
        · rw [hall k (Nat.lt_succ_of_lt hk), List.getElem?_append_left (hlen' ▸ hk)]
        · rw [hall n (Nat.lt_succ_self n), ← hlen', List.getElem?_concat_length]

/-- The lengths are the words behind the number of them. -/
theorem lengthsAt_eq_some_iff {host : Order} {map : Bytes} {off n : Nat} {ls : List Nat} :
    lengthsAt host map off n = some ls ↔
      ls.length = n ∧ ∀ k < n, wordAt map (off + 4 * (k + 1)) = ls[k]? := by
  have hword : ∀ k : Nat, ntohlAt host map (off + 4 * (k + 1) : Int) =
      wordAt map (off + 4 * (k + 1)) := by
    intro k
    rw [ntohlAt_eq host map (by omega)]
    congr 1
  unfold lengthsAt
  rw [mapM_range_eq_some_iff]
  simp only [hword]

/-- Half of an `int` is negative when it is -2 or less. -/
theorem tdiv_two_neg_iff (x : Int) : x.tdiv 2 < 0 ↔ x ≤ -2 := by
  rw [tdiv_eq_ite]
  split_ifs <;> omega

/-- What the reader found at the offset of the lengths when it gave an `Av`. -/
inductive ReadAt (env : Env) (map : Bytes) (metav : Nat) : Av → Prop where
  | mk (metaw listw : Nat) (metas datas : List Nat)
      (hmetaw : wordAt map metav = some metaw) (hmetac : -2 < int32 metaw)
      (hlistw : ntohlAt env.host map (metav + 4 * (int32 metaw + 1)) = some listw)
      (hlistc : -2 < int32 listw)
      (hmetaOver : 0 < int32 metaw → env.sizeofAv ≤ metav)
      (hdataOver : 0 < int32 listw → (env.sizeofAv : Int) ≤ metav + 4 * (int32 metaw + 1))
      (hmetas : lengthsAt env.host map metav (int32 metaw).toNat = some metas)
      (hdatas : lengthsAt env.host map (metav + 4 * (int32 metaw + 1)) (int32 listw).toNat =
        some datas) :
      ReadAt env map metav
        ⟨elems (pointers (metav + 4 * (int32 metaw + 1) + 4 * (int32 listw + 1) : Int).toNat metas),
          elems (pointers ((metav + 4 * (int32 metaw + 1) + 4 * (int32 listw + 1) : Int).toNat +
            metas.sum) datas)⟩

/-- **The reader gives what it finds at the first multiple of 8 behind the end of the text.** -/
theorem avGet_eq_some_iff {env : Env} {map : Bytes} {p : Nat} {av : Av}
    (hp : findHdrEnd map = some p) :
    avGet env map = some av ↔ ReadAt env map ((p / 8 + 1) * 8) av := by
  unfold avGet
  rw [hp, Option.bind_some]
  generalize (p / 8 + 1) * 8 = metav
  have hfirst : ntohlAt env.host map (metav : Nat) = wordAt map metav := ntohlAt_eq _ _ (by omega)
  constructor
  · intro h
    obtain ⟨metaw, hmetaw, h⟩ := Option.bind_eq_some_iff.mp h
    obtain ⟨listw, hlistw, h⟩ := Option.bind_eq_some_iff.mp h
    dsimp only at h
    split_ifs at h with hneg hover
    obtain ⟨metas, hmetas, h⟩ := Option.bind_eq_some_iff.mp h
    obtain ⟨datas, hdatas, rfl⟩ := Option.map_eq_some_iff.mp h
    rw [tdiv_two_neg_iff, tdiv_two_neg_iff] at hneg
    exact .mk metaw listw metas datas (hfirst ▸ hmetaw) (by omega) hlistw (by omega)
      (fun hpos => by omega) (fun hpos => by omega) hmetas hdatas
  · rintro
      ⟨metaw, listw, metas, datas, hmetaw, hmetac, hlistw, hlistc, hmetaOver, hdataOver, hmetas,
      hdatas⟩
    dsimp only
    rw [hfirst, hmetaw, Option.bind_some, hlistw, Option.bind_some]
    rw [if_neg, if_neg, hmetas, Option.bind_some, hdatas, Option.map_some]
    · rintro (⟨hpos, hlt⟩ | ⟨hpos, hlt⟩)
      · have := hmetaOver hpos
        omega
      · have := hdataOver hpos
        omega
    · rw [tdiv_two_neg_iff, tdiv_two_neg_iff]
      omega

end Nsdci.AvFile
